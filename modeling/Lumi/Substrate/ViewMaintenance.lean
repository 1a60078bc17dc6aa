import Mathlib.Algebra.BigOperators.Group.Multiset.Basic
import Lumi.Substrate.BroccoliMaterializedViewEngine

/-!
# Views against recomputation

The source of a view is a bag of rows, and each group of them a ledger of its values.  A view that is
created while the source is empty follows the ledgers: its counts and sums are those of the values
that are present, its least and greatest values those of the values gained since the group was last
empty.  So a view of counts, sums or averages is always what recomputation gives, and a view of least
or greatest values as long as no value goes away that none of the remaining rows outdoes
(`view_exact_iff`).
-/

namespace Lumi.Substrate

open Js List InsertionMap Function

variable {ρ : Type*}

/-! ## The rows of the source -/

/-- A mutation of a table. -/
inductive RowChange (ρ : Type*)
  | insert (after : ρ)
  | update (before after : ρ)
  | delete (before : ρ)

namespace RowChange

def operation : RowChange ρ → MutationOperation
  | insert _ => .insert
  | update _ _ => .update
  | delete _ => .delete

def before : RowChange ρ → Option ρ
  | insert _ => none
  | update before _ => some before
  | delete before => some before

def after : RowChange ρ → Option ρ
  | insert after => some after
  | update _ after => some after
  | delete _ => none

def apply [DecidableEq ρ] (rows : Multiset ρ) : RowChange ρ → Multiset ρ
  | insert after => after ::ₘ rows
  | update before after => after ::ₘ rows.erase before
  | delete before => rows.erase before

end RowChange

namespace MaterializedViewDefinition

variable [Host] [ObjectText] [RecordFields ρ] (d : MaterializedViewDefinition ρ)

/-- The group of a row, if the filter lets it pass. -/
def group (row : ρ) : Option Text := if d.passesFilter row then some (d.groupKey row) else none

/-- The value of a row, where it is a number. -/
def value (row : ρ) : ℚ :=
  match d.aggVal row with
  | .finite q => q
  | _ => 0

/-- A row that passes the filter has a number to be aggregated. -/
def HasNumber (row : ρ) : Prop := d.passesFilter row → d.aggVal row = .finite (d.value row)

instance (row : ρ) : Decidable (d.HasNumber row) := inferInstanceAs (Decidable (_ → _))

/-- The values of the rows of a group. -/
def values (rows : Multiset ρ) (key : Text) : Multiset ℚ :=
  (rows.filter fun row => d.group row = some key).map d.value

/-- The aggregate of the values of a group, from scratch. -/
def aggregate (values : Multiset ℚ) : Number :=
  match d.aggregateFunc.getD .count with
  | .count => .finite values.card
  | .sum => .finite values.sum
  | .avg => .finite (values.sum / values.card)
  | .min => .ofTop (least values)
  | .max => .ofBot (greatest values)

variable {d}

theorem HasNumber.aggVal {row : ρ} (h : d.HasNumber row) {key : Text}
    (hgroup : d.group row = some key) :
    d.groupKey row = key ∧ d.passesFilter row = true ∧ d.aggVal row = .finite (d.value row) := by
  rw [group] at hgroup
  split at hgroup
  · next hpasses => exact ⟨Option.some.inj hgroup, hpasses, h hpasses⟩
  · cases hgroup

theorem values_cons (row : ρ) (rows : Multiset ρ) (key : Text) :
    d.values (row ::ₘ rows) key =
      if d.group row = some key then d.value row ::ₘ d.values rows key else d.values rows key := by
  rw [values, Multiset.filter_cons]
  split
  · rw [Multiset.map_add, Multiset.map_singleton, Multiset.singleton_add]
    rfl
  · rw [zero_add]
    rfl

theorem values_erase [DecidableEq ρ] {row : ρ} {rows : Multiset ρ} (h : row ∈ rows) (key : Text) :
    d.values (rows.erase row) key =
      if d.group row = some key then (d.values rows key).erase (d.value row)
      else d.values rows key := by
  have hrows := values_cons (d := d) row (rows.erase row) key
  rw [Multiset.cons_erase h] at hrows
  split
  · next hgroup => rw [hrows, if_pos hgroup, Multiset.erase_cons_head]
  · next hgroup => rw [hrows, if_neg hgroup]

theorem value_mem_values {row : ρ} {rows : Multiset ρ} (h : row ∈ rows) {key : Text}
    (hgroup : d.group row = some key) : d.value row ∈ d.values rows key :=
  Multiset.mem_map_of_mem _ (Multiset.mem_filter.mpr ⟨h, hgroup⟩)

end MaterializedViewDefinition

/-! ## The ledgers of the groups -/

/-- The rows of the source of a view, and the ledgers of its groups. -/
structure ViewHistory (ρ : Type*) where
  rows : Multiset ρ
  ledgers : Text → Ledger ℚ

namespace ViewHistory

variable [Host] [ObjectText] [RecordFields ρ] (d : MaterializedViewDefinition ρ)

def start : ViewHistory ρ := ⟨0, fun _ => Ledger.empty⟩

section

variable (ledgers : Text → Ledger ℚ)

def gainRow (row : ρ) : Text → Ledger ℚ :=
  match d.group row with
  | none => ledgers
  | some key => Function.update ledgers key ((ledgers key).gain (d.value row))

def loseRow (row : ρ) : Text → Ledger ℚ :=
  match d.group row with
  | none => ledgers
  | some key => Function.update ledgers key ((ledgers key).lose (d.value row))

/-- What a mutation does to the ledgers: the row before it goes first. -/
def follow : RowChange ρ → Text → Ledger ℚ
  | .insert after => gainRow d ledgers after
  | .update before after => gainRow d (loseRow d ledgers before) after
  | .delete before => loseRow d ledgers before

end

variable {d} {ledgers : Text → Ledger ℚ} {rows : Multiset ρ}

/-- The ledgers hold the values of the rows. -/
def Present (d : MaterializedViewDefinition ρ) (ledgers : Text → Ledger ℚ) (rows : Multiset ρ) :
    Prop :=
  ∀ key, (ledgers key).present = d.values rows key

theorem Present.gainRow (h : Present d ledgers rows) (row : ρ) :
    Present d (gainRow d ledgers row) (row ::ₘ rows) := by
  intro key
  rw [ViewHistory.gainRow, MaterializedViewDefinition.values_cons, ← h key]
  cases d.group row with
  | none => rfl
  | some key' =>
    by_cases hkey : key' = key
    · subst hkey
      rw [if_pos rfl]
      dsimp only
      rw [update_self, Ledger.present_gain]
    · rw [if_neg fun heq => hkey (Option.some.inj heq)]
      dsimp only
      rw [update_of_ne (Ne.symm hkey)]

theorem Present.loseRow [DecidableEq ρ] (h : Present d ledgers rows) {row : ρ} (hmem : row ∈ rows) :
    Present d (loseRow d ledgers row) (rows.erase row) := by
  intro key
  rw [ViewHistory.loseRow, MaterializedViewDefinition.values_erase hmem, ← h key]
  cases d.group row with
  | none => rfl
  | some key' =>
    by_cases hkey : key' = key
    · subst hkey
      rw [if_pos rfl]
      dsimp only
      rw [update_self, Ledger.present_lose]
    · rw [if_neg fun heq => hkey (Option.some.inj heq)]
      dsimp only
      rw [update_of_ne (Ne.symm hkey)]

end ViewHistory

/-! ## A view follows the ledgers -/

/-- A group has the numbers of its ledger. -/
structure InternalViewGroup.Sums (group : InternalViewGroup) (l : Ledger ℚ) : Prop where
  count : group.count = l.present.card
  sum : group.sum = .finite l.present.sum
  min : group.min = .ofTop (least l.gained)
  max : group.max = .ofBot (greatest l.gained)

/-- The groups are those whose ledgers are not empty, with the numbers of these. -/
structure Tracks (groupMap : GroupMap) (ledgers : Text → Ledger ℚ) : Prop where
  listed : ∀ key, groupMap.get? key = none ↔ (ledgers key).present = 0
  groupKey : ∀ key group, groupMap.get? key = some group → group.groupKey = key
  sums : ∀ key group, groupMap.get? key = some group → group.Sums (ledgers key)

variable {groupMap : GroupMap} {ledgers : Text → Ledger ℚ}

theorem tracks_empty : Tracks InsertionMap.empty fun _ => Ledger.empty :=
  ⟨fun _ => iff_of_true rfl rfl, nofun, nofun⟩

/-- A group that is written, with the ledger that it then follows. -/
theorem Tracks.set (h : Tracks groupMap ledgers) {key : Text} {group : InternalViewGroup}
    {l : Ledger ℚ} (hkey : group.groupKey = key) (hne : l.present ≠ 0) (hsums : group.Sums l) :
    Tracks (groupMap.set key group) (Function.update ledgers key l) := by
  constructor
  · intro key'
    rw [get?_set, update_apply]
    split
    · exact iff_of_false nofun hne
    · exact h.listed key'
  · intro key' group' hget
    rw [get?_set] at hget
    split at hget
    · next heq => rw [heq, ← Option.some.inj hget, hkey]
    · exact h.groupKey key' group' hget
  · intro key' group' hget
    rw [get?_set] at hget
    rw [update_apply]
    split at hget
    · next heq => rwa [if_pos heq, ← Option.some.inj hget]
    · next hother => rw [if_neg hother]; exact h.sums key' group' hget

theorem Tracks.delete (h : Tracks groupMap ledgers) {key : Text} {l : Ledger ℚ}
    (hempty : l.present = 0) : Tracks (groupMap.delete key) (Function.update ledgers key l) := by
  constructor
  · intro key'
    rw [get?_delete, update_apply]
    split
    · exact iff_of_true rfl hempty
    · exact h.listed key'
  · intro key' group' hget
    rw [get?_delete] at hget
    split at hget
    · cases hget
    · exact h.groupKey key' group' hget
  · intro key' group' hget
    rw [get?_delete] at hget
    rw [update_apply]
    split at hget
    · cases hget
    · next hother => rw [if_neg hother]; exact h.sums key' group' hget

section

variable [Host] [ObjectText] [RecordFields ρ] {d : MaterializedViewDefinition ρ}

/-- A row that the filter keeps out of the view changes nothing. -/
theorem passesFilter_of_group_eq_none {row : ρ} (h : d.group row = none) :
    d.passesFilter row = false := by
  rw [MaterializedViewDefinition.group] at h
  split at h
  · cases h
  · next hnot => exact Bool.eq_false_iff.mpr hnot

theorem Tracks.add (h : Tracks groupMap ledgers) {row : ρ} (hnumber : d.HasNumber row) (now : ℕ) :
    Tracks (d.add groupMap row now) (ViewHistory.gainRow d ledgers row) := by
  rw [MaterializedViewDefinition.add, ViewHistory.gainRow]
  cases hgroup : d.group row with
  | none =>
    rw [passesFilter_of_group_eq_none hgroup]
    exact h
  | some key =>
    obtain ⟨rfl, hpasses, hval⟩ := hnumber.aggVal hgroup
    rw [hpasses, if_pos rfl]
    dsimp only
    rw [hval]
    set group := (groupMap.get? (d.groupKey row)).getD
      ⟨d.groupKey row, .finite 0, 0, .posInfinity, .negInfinity, now⟩
    -- a new group begins with the numbers of an empty ledger
    have hgroupKey : group.groupKey = d.groupKey row := by
      cases hget : groupMap.get? (d.groupKey row) with
      | none => simp [group, hget]
      | some found => simp [group, hget, h.groupKey _ found hget]
    have hsums : group.Sums (ledgers (d.groupKey row)) := by
      cases hget : groupMap.get? (d.groupKey row) with
      | none =>
        have hempty := (h.listed (d.groupKey row)).mp hget
        have hforgot := (ledgers (d.groupKey row)).gained_eq_zero hempty
        constructor <;> simp [group, hget, hempty, hforgot, Number.ofTop, Number.ofBot]
      | some found => simpa [group, hget] using h.sums _ found hget
    refine h.set hgroupKey Multiset.cons_ne_zero ⟨?_, ?_, ?_, ?_⟩
    · change group.count + 1 = _
      rw [hsums.count, Ledger.present_gain, Multiset.card_cons, Nat.cast_succ]
    · change group.sum.add _ = _
      rw [hsums.sum, Ledger.present_gain, Multiset.sum_cons, add_comm]
      rfl
    · change (if (Number.finite (d.value row)).lt group.min then _ else group.min) = _
      rw [hsums.min, Number.ofTop_min, Ledger.gained_gain, least_cons]
    · change (if group.max.lt (Number.finite (d.value row)) then _ else group.max) = _
      rw [hsums.max, Number.ofBot_max, Ledger.gained_gain, greatest_cons]

theorem Tracks.subtract (h : Tracks groupMap ledgers) {row : ρ} (hnumber : d.HasNumber row)
    (hmem : ∀ key, d.group row = some key → d.value row ∈ (ledgers key).present) (now : ℕ) :
    Tracks (d.subtract groupMap row now) (ViewHistory.loseRow d ledgers row) := by
  rw [MaterializedViewDefinition.subtract, ViewHistory.loseRow]
  cases hgroup : d.group row with
  | none =>
    rw [passesFilter_of_group_eq_none hgroup]
    exact h
  | some key =>
    have hvalue := hmem key hgroup
    obtain ⟨rfl, hpasses, hval⟩ := hnumber.aggVal hgroup
    rw [hpasses, if_pos rfl]
    dsimp only
    rw [hval]
    cases hget : groupMap.get? (d.groupKey row) with
    | none =>
      rw [(h.listed (d.groupKey row)).mp hget] at hvalue
      exact absurd hvalue (Multiset.notMem_zero _)
    | some group =>
      have hsums := h.sums _ group hget
      have hcard := Multiset.card_erase_add_one hvalue
      have hcount := hsums.count
      dsimp only
      split
      · next hgone =>
        -- the last row of the group
        apply h.delete
        rw [Ledger.present_lose, ← Multiset.card_eq_zero]
        omega
      · next hleft =>
        have hne : (ledgers (d.groupKey row)).present.erase (d.value row) ≠ 0 := by
          rw [← Multiset.card_pos]
          omega
        refine h.set (h.groupKey _ group hget) hne ⟨?_, ?_, ?_, ?_⟩
        · change group.count - 1 = _
          rw [Ledger.present_lose]
          omega
        · change group.sum.add (Number.finite (-d.value row)) = _
          rw [hsums.sum, Ledger.present_lose, ← Multiset.cons_erase hvalue,
            Multiset.sum_cons, Multiset.erase_cons_head, Number.add, add_neg_cancel_comm]
        · rw [Ledger.gained_lose_of_ne hne]
          exact hsums.min
        · rw [Ledger.gained_lose_of_ne hne]
          exact hsums.max

/-- **Step lemma of a view.**  A mutation whose records agree with the rows keeps the groups in step
with the ledgers. -/
theorem Tracks.maintain [DecidableEq ρ] {rows : Multiset ρ} (h : Tracks groupMap ledgers)
    (hpresent : ViewHistory.Present d ledgers rows) (clock : ViewClock) {change : RowChange ρ}
    (hbefore : ∀ row ∈ change.before, row ∈ rows ∧ d.HasNumber row)
    (hafter : ∀ row ∈ change.after, d.HasNumber row) :
    Tracks (d.maintain change.operation change.before change.after clock groupMap)
        (ViewHistory.follow d ledgers change) ∧
      ViewHistory.Present d (ViewHistory.follow d ledgers change) (change.apply rows) := by
  have hlose : ∀ {row}, row ∈ rows → d.HasNumber row →
      Tracks (d.subtract groupMap row clock.subtracted) (ViewHistory.loseRow d ledgers row) :=
    fun hrow hnumber => h.subtract hnumber
      (fun key hgroup => by rw [hpresent key]; exact d.value_mem_values hrow hgroup) _
  cases change with
  | insert after => exact ⟨h.add (hafter after rfl) _, hpresent.gainRow after⟩
  | update before after =>
    obtain ⟨hrow, hnumber⟩ := hbefore before rfl
    exact ⟨(hlose hrow hnumber).add (hafter after rfl) _, (hpresent.loseRow hrow).gainRow after⟩
  | delete before =>
    obtain ⟨hrow, hnumber⟩ := hbefore before rfl
    exact ⟨hlose hrow hnumber, hpresent.loseRow hrow⟩

/-! ## Runs of the engine -/

theorem get?_maintainView {sourceTable : Text} {operation : MutationOperation}
    {before after : Option ρ} {clock : Text → ViewClock} (viewStore : InsertionMap Text GroupMap)
    (e : Text × MaterializedViewDefinition ρ) (viewName : Text) :
    (BroccoliMaterializedViewEngine.maintainView sourceTable operation before after clock viewStore
        e).get? viewName =
      if viewName = e.1 ∧ e.2.sourceTable = sourceTable then
        (viewStore.get? viewName).map (e.2.maintain operation before after (clock e.1))
      else viewStore.get? viewName := by
  rw [BroccoliMaterializedViewEngine.maintainView]
  by_cases htable : e.2.sourceTable = sourceTable
  · rw [if_neg (not_not.mpr htable)]
    by_cases hname : viewName = e.1
    · rw [if_pos ⟨hname, htable⟩, hname]
      cases hget : viewStore.get? e.1 with
      | none => simp [hget]
      | some groupMap => simp
    · rw [if_neg fun hboth => hname hboth.1]
      cases viewStore.get? e.1 with
      | none => rfl
      | some groupMap => exact get?_set_of_ne _ _ hname
  · rw [if_pos htable, if_neg fun hboth => htable hboth.2]

/-- Each view is maintained by its own definition. -/
theorem get?_foldl_maintainView {sourceTable : Text} {operation : MutationOperation}
    {before after : Option ρ} {clock : Text → ViewClock}
    {l : List (Text × MaterializedViewDefinition ρ)} (hl : (l.map Prod.fst).Nodup)
    (viewStore : InsertionMap Text GroupMap) {viewName : Text}
    {d : MaterializedViewDefinition ρ} (hd : (viewName, d) ∈ l) :
    (l.foldl (BroccoliMaterializedViewEngine.maintainView sourceTable operation before after clock)
        viewStore).get? viewName =
      if d.sourceTable = sourceTable then
        (viewStore.get? viewName).map (d.maintain operation before after (clock viewName))
      else viewStore.get? viewName := by
  have hother : ∀ (l : List (Text × MaterializedViewDefinition ρ)) viewStore,
      viewName ∉ l.map Prod.fst →
      (l.foldl (BroccoliMaterializedViewEngine.maintainView sourceTable operation before after
        clock) viewStore).get? viewName = viewStore.get? viewName := by
    intro l
    induction l with
    | nil => exact fun _ _ => rfl
    | cons e rest ih =>
      intro viewStore hnot
      rw [map_cons, mem_cons, not_or] at hnot
      rw [foldl_cons, ih _ hnot.2, get?_maintainView, if_neg fun hboth => hnot.1 hboth.1]
  induction l generalizing viewStore with
  | nil => cases hd
  | cons e rest ih =>
    rw [map_cons, nodup_cons] at hl
    rw [foldl_cons]
    rcases mem_cons.mp hd with rfl | hrest
    · rw [hother rest _ hl.1, get?_maintainView]
      simp only [true_and]
    · have hname : viewName ≠ e.1 := by
        rintro rfl
        exact hl.1 (mem_map.mpr ⟨(e.1, d), hrest, rfl⟩)
      have hfirst : (BroccoliMaterializedViewEngine.maintainView sourceTable operation before after
          clock viewStore e).get? viewName = viewStore.get? viewName := by
        rw [get?_maintainView, if_neg fun hboth => hname hboth.1]
      rw [ih hl.2 _ hrest, hfirst]

/-- The calls of the engine. -/
inductive ViewCall (ρ : Type*)
  | createView (d : MaterializedViewDefinition ρ)
  | dropView (viewName : Text)
  | applyMutation (sourceTable : Text) (change : RowChange ρ) (clock : Text → ViewClock)

def BroccoliMaterializedViewEngine.step (s : BroccoliMaterializedViewEngine ρ) :
    ViewCall ρ → BroccoliMaterializedViewEngine ρ
  | .createView d => s.createView d
  | .dropView viewName => (s.dropView viewName).2
  | .applyMutation sourceTable change clock =>
    s.applyMutation sourceTable change.operation change.before change.after clock

variable [DecidableEq ρ]

def ViewHistory.step (d : MaterializedViewDefinition ρ) (h : ViewHistory ρ) :
    ViewCall ρ → ViewHistory ρ
  | .applyMutation sourceTable change _ =>
    if sourceTable = d.sourceTable then ⟨change.apply h.rows, follow d h.ledgers change⟩ else h
  | _ => h

/-- The view is left alone; the records of a mutation of its source agree with the rows, and the
numbers to be aggregated are numbers. -/
def ViewHistory.Agrees (d : MaterializedViewDefinition ρ) (h : ViewHistory ρ) : ViewCall ρ → Prop
  | .createView d' => d'.viewName ≠ d.viewName
  | .dropView viewName => viewName ≠ d.viewName
  | .applyMutation sourceTable change _ => sourceTable = d.sourceTable →
      (∀ row ∈ change.before, row ∈ h.rows ∧ d.HasNumber row) ∧
        ∀ row ∈ change.after, d.HasNumber row

instance (h : ViewHistory ρ) : (call : ViewCall ρ) → Decidable (h.Agrees d call)
  | .createView _ => inferInstanceAs (Decidable (_ ≠ _))
  | .dropView _ => inferInstanceAs (Decidable (_ ≠ _))
  | .applyMutation _ _ _ => inferInstanceAs (Decidable (_ → _))

/-- The view follows its source. -/
structure Maintains (s : BroccoliMaterializedViewEngine ρ) (d : MaterializedViewDefinition ρ)
    (h : ViewHistory ρ) : Prop where
  defined : s.definitions.get? d.viewName = some d
  tracks : ∃ groupMap, s.viewStore.get? d.viewName = some groupMap ∧ Tracks groupMap h.ledgers
  present : ViewHistory.Present d h.ledgers h.rows

variable {s : BroccoliMaterializedViewEngine ρ} {h : ViewHistory ρ}

omit [DecidableEq ρ] in
theorem maintains_createView (hnew : s.viewStore.get? d.viewName = none) :
    Maintains (s.createView d) d ViewHistory.start := by
  constructor
  · exact get?_set_self _ _ _
  · refine ⟨InsertionMap.empty, ?_, tracks_empty⟩
    rw [BroccoliMaterializedViewEngine.createView, hnew]
    exact get?_set_self _ _ _
  · exact fun key => rfl

/-- **Step lemma.** -/
theorem Maintains.step (hs : Maintains s d h) {call : ViewCall ρ} (hcall : h.Agrees d call) :
    Maintains (s.step call) d (h.step d call) := by
  obtain ⟨groupMap, hget, htracks⟩ := hs.tracks
  cases call with
  | createView d' =>
    have hname : d.viewName ≠ d'.viewName := Ne.symm hcall
    refine ⟨(get?_set_of_ne _ _ hname).trans hs.defined, ⟨groupMap, ?_, htracks⟩,
      hs.present⟩
    rw [← hget, BroccoliMaterializedViewEngine.step, BroccoliMaterializedViewEngine.createView]
    dsimp only
    split
    · exact get?_set_of_ne _ _ hname
    · rfl
  | dropView viewName =>
    have hname : d.viewName ≠ viewName := Ne.symm hcall
    exact ⟨(get?_delete_of_ne _ hname).trans hs.defined,
      ⟨groupMap, (get?_delete_of_ne _ hname).trans hget, htracks⟩, hs.present⟩
  | applyMutation sourceTable change clock =>
    have hstore : (s.step (.applyMutation sourceTable change clock)).viewStore.get? d.viewName = _ :=
      get?_foldl_maintainView s.definitions.nodup s.viewStore
        (mem_entries_iff.mpr hs.defined)
    by_cases htable : sourceTable = d.sourceTable
    · obtain ⟨hbefore, hafter⟩ := hcall htable
      obtain ⟨htracks', hpresent'⟩ :=
        htracks.maintain hs.present (clock d.viewName) hbefore hafter
      rw [if_pos htable.symm, hget] at hstore
      rw [ViewHistory.step, if_pos htable]
      exact ⟨hs.defined, ⟨_, hstore, htracks'⟩, hpresent'⟩
    · rw [if_neg fun heq => htable heq.symm, hget] at hstore
      rw [ViewHistory.step, if_neg htable]
      exact ⟨hs.defined, ⟨groupMap, hstore, htracks⟩, hs.present⟩

theorem Maintains.run (hs : Maintains s d h) {calls : List (ViewCall ρ)}
    (hcalls : Run.Guarded (ViewHistory.step d) (ViewHistory.Agrees d) h calls) :
    Maintains (Run.run BroccoliMaterializedViewEngine.step s calls) d
      (Run.run (ViewHistory.step d) h calls) := by
  induction calls generalizing s h with
  | nil => exact hs
  | cons call rest ih => exact ih (hs.step hcalls.1) hcalls.2

/-! ## The rows of a view -/

/-- The view shows the aggregate of each group that has rows, once, and no other group. -/
def ShowsExactly (s : BroccoliMaterializedViewEngine ρ) (d : MaterializedViewDefinition ρ)
    (rows : Multiset ρ) : Prop :=
  ((s.getViewData d.viewName).map MaterializedViewRow.groupKey).Nodup ∧
    ∀ key value,
      (∃ row ∈ s.getViewData d.viewName, row.groupKey = key ∧ row.aggregateValue = value) ↔
        d.values rows key ≠ 0 ∧ value = d.aggregate (d.values rows key)

/-- Where the view shows least or greatest values, each value that a group gained since it was last
empty is outdone by one of a row that is still there. -/
def KeepsExtremes (d : MaterializedViewDefinition ρ) (h : ViewHistory ρ) : Prop :=
  match d.aggregateFunc.getD .count with
  | .min => ∀ key, ∀ x ∈ (h.ledgers key).gained, ∃ y ∈ d.values h.rows key, y ≤ x
  | .max => ∀ key, ∀ x ∈ (h.ledgers key).gained, ∃ y ∈ d.values h.rows key, x ≤ y
  | _ => True

omit [DecidableEq ρ]

omit [Host] [ObjectText] in
theorem Tracks.nodup_groupKey (h : Tracks groupMap ledgers) :
    (groupMap.values.map InternalViewGroup.groupKey).Nodup := by
  have hkeys : groupMap.values.map InternalViewGroup.groupKey = groupMap.keys := by
    rw [InsertionMap.values, InsertionMap.keys, map_map]
    refine map_congr_left fun e he => ?_
    exact h.groupKey e.1 e.2 (mem_entries_iff.mp he)
  rw [hkeys]
  exact groupMap.nodup

omit [Host] [ObjectText] [RecordFields ρ] in
theorem getViewData_eq (hdefined : s.definitions.get? d.viewName = some d)
    (hget : s.viewStore.get? d.viewName = some groupMap) :
    s.getViewData d.viewName = groupMap.values.map fun group =>
      ⟨group.groupKey, BroccoliMaterializedViewEngine.aggregateValue (d.aggregateFunc.getD .count) group,
        group.count, group.lastUpdatedAt⟩ := by
  rw [BroccoliMaterializedViewEngine.getViewData, hdefined, hget]

/-- The view is exact when the groups show what recomputation gives. -/
theorem Maintains.showsExactly_iff (hs : Maintains s d h) :
    ShowsExactly s d h.rows ↔ ∀ groupMap, s.viewStore.get? d.viewName = some groupMap →
      ∀ key group, groupMap.get? key = some group →
        BroccoliMaterializedViewEngine.aggregateValue (d.aggregateFunc.getD .count) group =
          d.aggregate (d.values h.rows key) := by
  obtain ⟨groupMap, hget, htracks⟩ := hs.tracks
  have hrows : ∀ key value,
      (∃ row ∈ s.getViewData d.viewName, row.groupKey = key ∧ row.aggregateValue = value) ↔
        ∃ group, groupMap.get? key = some group ∧
          BroccoliMaterializedViewEngine.aggregateValue (d.aggregateFunc.getD .count) group = value := by
    intro key value
    rw [getViewData_eq hs.defined hget]
    constructor
    · rintro ⟨row, hmem, rfl, rfl⟩
      obtain ⟨group, hgroup, rfl⟩ := mem_map.mp hmem
      obtain ⟨⟨key, group⟩, hentry, rfl⟩ := mem_map.mp hgroup
      have hkey := mem_entries_iff.mp hentry
      exact ⟨group, by rwa [htracks.groupKey key group hkey], rfl⟩
    · rintro ⟨group, hkey, rfl⟩
      refine ⟨_, mem_map.mpr ⟨group, ?_, rfl⟩, htracks.groupKey key group hkey, rfl⟩
      exact mem_map.mpr ⟨(key, group), mem_entries_iff.mpr hkey, rfl⟩
  have hlisted : ∀ key, (∃ group, groupMap.get? key = some group) ↔ d.values h.rows key ≠ 0 := by
    intro key
    rw [← hs.present key, ← not_iff_not, not_not, ← htracks.listed key,
      ← Option.isSome_iff_exists, Option.not_isSome_iff_eq_none]
  constructor
  · rintro ⟨-, hexact⟩ groupMap' hget' key group hgroup
    obtain rfl := Option.some.inj (hget.symm.trans hget')
    exact ((hexact key _).mp ((hrows key _).mpr ⟨group, hgroup, rfl⟩)).2
  · intro hvalues
    constructor
    · rw [getViewData_eq hs.defined hget, map_map]
      exact htracks.nodup_groupKey
    · intro key value
      rw [hrows, ← hlisted]
      constructor
      · rintro ⟨group, hgroup, rfl⟩
        exact ⟨⟨group, hgroup⟩, hvalues groupMap hget key group hgroup⟩
      · rintro ⟨⟨group, hgroup⟩, rfl⟩
        exact ⟨group, hgroup, hvalues groupMap hget key group hgroup⟩

omit [Host] [ObjectText] [RecordFields ρ] in
/-- Recomputation from the numbers of a group, which are those of its ledger. -/
theorem InternalViewGroup.Sums.aggregateValue_eq_iff {group : InternalViewGroup} {l : Ledger ℚ}
    (h : group.Sums l) (hne : l.present ≠ 0) :
    BroccoliMaterializedViewEngine.aggregateValue (d.aggregateFunc.getD .count) group =
        d.aggregate l.present ↔
      match d.aggregateFunc.getD .count with
      | .min => ∀ x ∈ l.gained, ∃ y ∈ l.present, y ≤ x
      | .max => ∀ x ∈ l.gained, ∃ y ∈ l.present, x ≤ y
      | _ => True := by
  have hpos : 0 < group.count := by
    rw [h.count]
    exact_mod_cast Multiset.card_pos.mpr hne
  rw [MaterializedViewDefinition.aggregate]
  cases d.aggregateFunc.getD .count with
  | count =>
    refine iff_of_true ?_ trivial
    change Number.finite group.count = _
    rw [h.count, Int.cast_natCast]
  | sum => exact iff_of_true h.sum trivial
  | avg =>
    refine iff_of_true ?_ trivial
    change (if 0 < group.count then group.sum.divBy group.count else _) = _
    rw [if_pos hpos, h.sum, h.count, Number.divBy, Int.cast_natCast]
  | min =>
    change (if 0 < group.count then group.min else _) = _ ↔ _
    rw [if_pos hpos, h.min, Number.ofTop_injective.eq_iff]
    exact Ledger.least_gained_eq_iff hne
  | max =>
    change (if 0 < group.count then group.max else _) = _ ↔ _
    rw [if_pos hpos, h.max, Number.ofBot_injective.eq_iff]
    exact Ledger.greatest_gained_eq_iff hne

theorem Maintains.showsExactly_iff_keepsExtremes (hs : Maintains s d h) :
    ShowsExactly s d h.rows ↔ KeepsExtremes d h := by
  obtain ⟨groupMap, hget, htracks⟩ := hs.tracks
  have hgroups : ShowsExactly s d h.rows ↔ ∀ key, (h.ledgers key).present ≠ 0 →
      match d.aggregateFunc.getD .count with
      | .min => ∀ x ∈ (h.ledgers key).gained, ∃ y ∈ (h.ledgers key).present, y ≤ x
      | .max => ∀ x ∈ (h.ledgers key).gained, ∃ y ∈ (h.ledgers key).present, x ≤ y
      | _ => True := by
    rw [hs.showsExactly_iff]
    constructor
    · intro hvalues key hne
      cases hgroup : groupMap.get? key with
      | none => exact absurd ((htracks.listed key).mp hgroup) hne
      | some group =>
        rw [← (htracks.sums key group hgroup).aggregateValue_eq_iff hne, hs.present key]
        exact hvalues groupMap hget key group hgroup
    · intro hkeeps groupMap' hget' key group hgroup
      obtain rfl := Option.some.inj (hget.symm.trans hget')
      have hne : (h.ledgers key).present ≠ 0 := by
        rw [Ne, ← htracks.listed key, hgroup]
        nofun
      rw [← hs.present key]
      exact ((htracks.sums key group hgroup).aggregateValue_eq_iff hne).mpr (hkeeps key hne)
  rw [hgroups, KeepsExtremes]
  -- an empty group has gained nothing
  have hempty : ∀ key, (h.ledgers key).present = 0 → ∀ x, x ∉ (h.ledgers key).gained := by
    intro key hzero x hx
    rw [(h.ledgers key).gained_eq_zero hzero] at hx
    exact absurd hx (Multiset.notMem_zero x)
  have hpresent : ∀ key, (h.ledgers key).present = d.values h.rows key := hs.present
  cases d.aggregateFunc.getD .count with
  | count | sum | avg => exact iff_of_true (fun _ _ => trivial) trivial
  | min =>
    simp only [hpresent] at hempty ⊢
    exact ⟨fun hall key x hx => hall key (fun hzero => hempty key hzero x hx) x hx,
      fun hall key _ => hall key⟩
  | max =>
    simp only [hpresent] at hempty ⊢
    exact ⟨fun hall key x hx => hall key (fun hzero => hempty key hzero x hx) x hx,
      fun hall key _ => hall key⟩

/-- **Incremental views equal recomputation**, those of least and greatest values exactly as long as
each value gained by a group is outdone by a row that is still there. -/
theorem view_exact_iff [DecidableEq ρ] (s : BroccoliMaterializedViewEngine ρ)
    (d : MaterializedViewDefinition ρ) (hnew : s.viewStore.get? d.viewName = none)
    (calls : List (ViewCall ρ))
    (hcalls : Run.Guarded (ViewHistory.step d) (ViewHistory.Agrees d) ViewHistory.start calls) :
    ShowsExactly (Run.run BroccoliMaterializedViewEngine.step (s.createView d) calls) d
        (Run.run (ViewHistory.step d) ViewHistory.start calls).rows ↔
      KeepsExtremes d (Run.run (ViewHistory.step d) ViewHistory.start calls) :=
  ((maintains_createView hnew).run hcalls).showsExactly_iff_keepsExtremes

end

section

open scoped Js.Ascii

/-- A row of a sale. -/
def sale (shop : String) (amount : ℚ) : InsertionMap Text Value :=
  InsertionMap.ofList [(text "shop", .string (text shop)), (text "amount", .number (.finite amount))]

def salesView (func : AggregateFunc) : MaterializedViewDefinition (InsertionMap Text Value) :=
  ⟨text "byShop", text "sales", some (text "shop"), some (text "amount"), some func, none⟩

def onSales (change : RowChange (InsertionMap Text Value)) : ViewCall (InsertionMap Text Value) :=
  .applyMutation (text "sales") change fun _ => ⟨0, 0⟩

/-- A row that changes its group, and a group that vanishes. -/
theorem view_of_sums : ShowsExactly
    (Run.run BroccoliMaterializedViewEngine.step
      (BroccoliMaterializedViewEngine.new.createView (salesView .sum))
      [onSales (.insert (sale "a" 3)), onSales (.update (sale "a" 3) (sale "b" 4))])
    (salesView .sum)
    (Run.run (ViewHistory.step (salesView .sum)) ViewHistory.start
      [onSales (.insert (sale "a" 3)), onSales (.update (sale "a" 3) (sale "b" 4))]).rows :=
  (view_exact_iff _ (salesView .sum) rfl _ (by decide +kernel)).mpr trivial

/-- The least value stays when its row is deleted. -/
theorem deleted_minimum_stays :
    let calls := [onSales (.insert (sale "a" 3)), onSales (.insert (sale "a" 5)),
      onSales (.delete (sale "a" 3))]
    Run.Guarded (ViewHistory.step (salesView .min)) (ViewHistory.Agrees (salesView .min))
        ViewHistory.start calls ∧
      ¬ShowsExactly
        (Run.run BroccoliMaterializedViewEngine.step
          (BroccoliMaterializedViewEngine.new.createView (salesView .min)) calls)
        (salesView .min)
        (Run.run (ViewHistory.step (salesView .min)) ViewHistory.start calls).rows := by
  refine ⟨by decide +kernel, fun h => ?_⟩
  have hshown := (h.2 (text "a") (.finite 5)).mpr (by decide +kernel)
  revert hshown
  decide +kernel

end

end Lumi.Substrate
