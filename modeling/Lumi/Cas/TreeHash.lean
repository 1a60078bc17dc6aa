import Lumi.Cas.Merge
import Lumi.Lib.JsText
import Lumi.Lib.StableSort

/-!
# The hash of a tree

A tree is hashed as a text with a line for each file, in the order of the collation of the paths.
Paths that the collation does not tell apart stay as they came, so their order shows in the hash; and
a path with a newline can pass for the lines of other files.  Where no path has a newline, the hash
tells exactly whether two lists have the same files and, of the paths that are not told apart, the
same order (`treeHash_eq_iff`).
-/

namespace Lumi.Cas

open Js StableSort List

namespace CasStore

/-! ## The line of a file -/

/-- The line of a file in the text that is hashed: octal mode, content hash and path. -/
def entryLine (e : Text × Text × ℕ) : Text :=
  octal e.2.2 ++ text " " ++ e.2.1 ++ text " " ++ e.1

theorem toNat_le_of_isDigit {c : Char} (hc : c.isDigit = true) : 48 ≤ c.toNat ∧ c.toNat ≤ 57 :=
  Char.isDigit_iff_toNat.mp hc

theorem octal_eq_map (n : ℕ) : octal n = (Nat.toDigits 8 n).map fun c => c.toNat.toUInt16 := by
  have hunits : ∀ l : List Char, (∀ c ∈ l, c.isDigit = true) →
      l.flatMap utf16 = l.map fun c => c.toNat.toUInt16 := by
    intro l hl
    induction l with
    | nil => rfl
    | cons c rest ih =>
      have hc : c.toNat < 0x10000 := by
        have hdigit := toNat_le_of_isDigit (hl c mem_cons_self)
        omega
      rw [flatMap_cons, map_cons, utf16, if_pos hc,
        ih fun c' hc' => hl c' (mem_cons_of_mem _ hc')]
      rfl
  rw [octal, text, String.toList_ofList]
  exact hunits _ fun c hc => Nat.isDigit_of_mem_toDigits (by decide) (by decide) hc

theorem octal_injective : Function.Injective octal := by
  intro m n h
  have hread (n : ℕ) : (octal n).map (fun u => Char.ofNat u.toNat) = Nat.toDigits 8 n := by
    rw [octal_eq_map, map_map]
    refine (map_congr_left fun c hc => ?_).trans (map_id _)
    have hdigit := toNat_le_of_isDigit (Nat.isDigit_of_mem_toDigits (by decide) (by decide) hc)
    have hunit : c.toNat.toUInt16.toNat = c.toNat := Nat.mod_eq_of_lt (by omega)
    show Char.ofNat c.toNat.toUInt16.toNat = c
    rw [hunit, Char.ofNat_toNat]
  have hdigits := congrArg (List.map fun u => Char.ofNat u.toNat) h
  rw [hread, hread] at hdigits
  rw [← Nat.ofDigitChars_toDigits (b := 8) (n := m) (by decide) (by decide), hdigits,
    Nat.ofDigitChars_toDigits (by decide) (by decide)]

/-- Neither a space nor a newline is a digit. -/
theorem notMem_octal {u : UInt16} (hu : u.toNat < 48) (n : ℕ) : u ∉ octal n := by
  intro hmem
  rw [octal_eq_map] at hmem
  obtain ⟨c, hc, rfl⟩ := mem_map.mp hmem
  have hdigit := toNat_le_of_isDigit (Nat.isDigit_of_mem_toDigits (by decide) (by decide) hc)
  have hunit : c.toNat.toUInt16.toNat = c.toNat := Nat.mod_eq_of_lt (by omega)
  omega

/-- What stands before the first separator, and what after it. -/
theorem append_cons_inj {c : UInt16} {front front' back back' : Text} (h : c ∉ front)
    (h' : c ∉ front') (heq : front ++ c :: back = front' ++ c :: back') :
    front = front' ∧ back = back' := by
  induction front generalizing front' with
  | nil =>
    cases front' with
    | nil => exact ⟨rfl, (List.cons.inj heq).2⟩
    | cons d rest' =>
      obtain ⟨rfl, -⟩ := List.cons.inj heq
      exact absurd mem_cons_self h'
  | cons d rest ih =>
    cases front' with
    | nil =>
      obtain ⟨rfl, -⟩ := List.cons.inj heq
      exact absurd mem_cons_self h
    | cons d' rest' =>
      obtain ⟨rfl, hrest⟩ := List.cons.inj heq
      obtain ⟨rfl, hback⟩ := ih (fun hmem => h (mem_cons_of_mem _ hmem))
        (fun hmem => h' (mem_cons_of_mem _ hmem)) hrest
      exact ⟨rfl, hback⟩

theorem entryLine_eq (e : Text × Text × ℕ) :
    entryLine e = octal e.2.2 ++ 0x20 :: (e.2.1 ++ 0x20 :: e.1) := by
  rw [entryLine, append_assoc, append_assoc, append_assoc]
  rfl

/-- A line can be read back if the content hash has no space. -/
theorem entryLine_inj {e e' : Text × Text × ℕ} (hspace : (0x20 : UInt16) ∉ e.2.1)
    (hspace' : (0x20 : UInt16) ∉ e'.2.1) (h : entryLine e = entryLine e') : e = e' := by
  rw [entryLine_eq, entryLine_eq] at h
  obtain ⟨hmode, hrest⟩ := append_cons_inj (notMem_octal (by decide) _) (notMem_octal (by decide) _) h
  obtain ⟨hhash, hpath⟩ := append_cons_inj hspace hspace' hrest
  exact Prod.ext hpath (Prod.ext hhash (octal_injective hmode))

theorem newline_notMem_entryLine {e : Text × Text × ℕ} (hhash : newline ∉ e.2.1)
    (hpath : newline ∉ e.1) : newline ∉ entryLine e := by
  have hoctal : newline ∉ octal e.2.2 := notMem_octal (by decide) _
  have hspace : newline ≠ 0x20 := by decide
  rw [entryLine_eq]
  simp [hoctal, hhash, hpath, hspace]

end CasStore

/-! ## What lists of files have in common -/

section

/-- Mode and content of a path. -/
def fileAt (files : List FileInput) (path : Text) : Option (ℕ × Bytes) :=
  (files.find? fun f => cleanPath f.path = path).map fun f => (f.mode.getD 0o644, f.data)

/-- The paths of the files, clean. -/
def pathsOf (files : List FileInput) : List Text := files.map fun f => cleanPath f.path

/-- Two lists denote the same map. -/
def SameFiles (files files' : List FileInput) : Prop :=
  ∀ path, fileAt files path = fileAt files' path

/-- No path has a newline. -/
def NewlineFree (files : List FileInput) : Prop := ∀ f ∈ files, newline ∉ f.path

theorem newline_notMem_cleanPath {path : Text} (h : newline ∉ path) : newline ∉ cleanPath path := by
  intro hmem
  obtain ⟨c, hc, heq⟩ := mem_map.mp hmem
  split at heq
  · exact absurd heq (by decide)
  · exact h (heq ▸ hc)

variable {files files' : List FileInput}

/-- The entry of a path is the one file that has it. -/
theorem fileAt_eq_some_iff (hnodup : (pathsOf files).Nodup) {path : Text} {file : ℕ × Bytes} :
    fileAt files path = some file ↔
      ∃ f ∈ files, cleanPath f.path = path ∧ (f.mode.getD 0o644, f.data) = file := by
  rw [fileAt, Option.map_eq_some_iff]
  constructor
  · rintro ⟨f, hf, rfl⟩
    exact ⟨f, mem_of_find?_eq_some hf, by simpa using find?_some hf, rfl⟩
  · rintro ⟨f, hf, rfl, rfl⟩
    refine ⟨f, ?_, rfl⟩
    cases hfind : files.find? fun g => cleanPath g.path = cleanPath f.path with
    | none => exact absurd (decide_eq_true rfl) (find?_eq_none.mp hfind f hf)
    | some g =>
      have hpath : cleanPath g.path = cleanPath f.path := by simpa using find?_some hfind
      exact congrArg some
        (inj_on_of_nodup_map hnodup (mem_of_find?_eq_some hfind) hf hpath)

variable [Runtime]

/-- What a tree shows of a file: its path, the hash of its content, and its mode. -/
def shown (f : FileInput) : Text × Text × ℕ :=
  (cleanPath f.path, sha256 f.data, f.mode.getD 0o644)

/-- The collation lists a path before another, or does not tell them apart. -/
def Collates (path path' : Text) : Prop := (Runtime.localeCompare path path').isLE = true

instance : DecidableRel Collates := fun path path' =>
  inferInstanceAs (Decidable ((Runtime.localeCompare path path').isLE = true))

def ListedBefore (e e' : Text × Text × ℕ) : Prop := Collates e.1 e'.1

instance : DecidableRel ListedBefore := fun e e' => inferInstanceAs (Decidable (Collates e.1 e'.1))

/-- Paths that the collation does not tell apart come in the same order. -/
def SameOrder (files files' : List FileInput) : Prop :=
  ∀ path, kind Collates path (pathsOf files) = kind Collates path (pathsOf files')

/-- The text that is hashed. -/
def manifestOf (files : List FileInput) : Text :=
  joinLines (((files.map shown).insertionSort ListedBefore).map CasStore.entryLine)

/-- The digests of two lists do not collide, and have neither spaces nor newlines. -/
structure NoCollision (files files' : List FileInput) : Prop where
  contents : ∀ f ∈ files, ∀ f' ∈ files', sha256 f.data = sha256 f'.data → f.data = f'.data
  manifests : sha256 (Runtime.utf8 (manifestOf files)) = sha256 (Runtime.utf8 (manifestOf files')) →
    manifestOf files = manifestOf files'
  digits : ∀ f ∈ files ++ files', (0x20 : UInt16) ∉ sha256 f.data ∧ newline ∉ sha256 f.data

theorem treeHashOf_putTree (s : CasStore) (files : List FileInput) :
    CasStore.treeHashOf (s.putTree files).1 = sha256 (Runtime.utf8 (manifestOf files)) := by
  let view (e : TreeEntry) : Text × Text × ℕ := (e.path, e.hash, e.mode)
  have hsort : (s.putTree files).1.map view = (files.map shown).insertionSort ListedBefore := by
    show (CasStore.sortEntries (s.putFiles files).1).map view = _
    refine (map_insertionSort _ ListedBefore view _ fun _ _ _ _ => Iff.rfl).trans ?_
    exact congrArg (List.insertionSort ListedBefore) (s.map_putFiles files)
  have hlines : CasStore.treeManifest (s.putTree files).1
      = joinLines (((s.putTree files).1.map view).map CasStore.entryLine) := by
    rw [map_map]
    rfl
  rw [CasStore.treeHashOf, hlines, hsort]
  rfl

/-! ## Reading the text back -/

omit [Runtime] in
theorem joinLines_injective {lines lines' : List Text} (hlines : ∀ l ∈ lines, newline ∉ l ∧ l ≠ [])
    (hlines' : ∀ l ∈ lines', newline ∉ l ∧ l ≠ []) (h : joinLines lines = joinLines lines') :
    lines = lines' := by
  have hnil : ∀ lines : List Text, (∀ l ∈ lines, newline ∉ l ∧ l ≠ []) → joinLines lines = [] →
      lines = [] := by
    intro lines hlines hjoin
    by_contra hne
    have hsplit := splitLines_joinLines hne fun l hl => (hlines l hl).1
    rw [hjoin] at hsplit
    have hmem : [] ∈ lines := by rw [← hsplit]; exact mem_cons_self
    exact (hlines [] hmem).2 rfl
  by_cases hne : lines = []
  · subst hne
    exact (hnil lines' hlines' h.symm).symm
  · have hne' : lines' ≠ [] := fun hempty => hne (hnil lines hlines (h.trans (hempty ▸ rfl)))
    rw [← splitLines_joinLines hne fun l hl => (hlines l hl).1, h,
      splitLines_joinLines hne' fun l hl => (hlines' l hl).1]

omit [Runtime] in
theorem map_injective_of_mem {α β : Type*} {f : α → β} {l l' : List α}
    (hf : ∀ a ∈ l, ∀ a' ∈ l', f a = f a' → a = a') (h : l.map f = l'.map f) : l = l' := by
  induction l generalizing l' with
  | nil => exact (map_eq_nil_iff.mp h.symm).symm
  | cons a rest ih =>
    cases l' with
    | nil => cases h
    | cons a' rest' =>
      obtain ⟨hhead, htail⟩ := List.cons.inj h
      rw [hf a mem_cons_self a' mem_cons_self hhead,
        ih (fun b hb b' hb' => hf b (mem_cons_of_mem _ hb) b' (mem_cons_of_mem _ hb'))
          htail]

/-- Where no path has a newline, the text shows the entries and their order. -/
theorem manifestOf_eq_iff (hno : NoCollision files files') (hfree : NewlineFree (files ++ files')) :
    manifestOf files = manifestOf files' ↔
      (files.map shown).insertionSort ListedBefore
        = (files'.map shown).insertionSort ListedBefore := by
  have hentry : ∀ part ⊆ files ++ files', ∀ e ∈ (part.map shown).insertionSort ListedBefore,
      ((0x20 : UInt16) ∉ e.2.1 ∧ newline ∉ e.2.1) ∧ newline ∉ e.1 := by
    intro part hpart e he
    obtain ⟨f, hf, rfl⟩ := mem_map.mp ((mem_insertionSort _).mp he)
    exact ⟨hno.digits f (hpart hf), newline_notMem_cleanPath (hfree f (hpart hf))⟩
  have hline : ∀ part ⊆ files ++ files',
      ∀ l ∈ ((part.map shown).insertionSort ListedBefore).map CasStore.entryLine,
        newline ∉ l ∧ l ≠ [] := by
    intro part hpart l hl
    obtain ⟨e, he, rfl⟩ := mem_map.mp hl
    obtain ⟨hhash, hpath⟩ := hentry part hpart e he
    refine ⟨CasStore.newline_notMem_entryLine hhash.2 hpath, ?_⟩
    rw [CasStore.entryLine_eq]
    simp
  have hleft : files ⊆ files ++ files' := subset_append_left _ _
  have hright : files' ⊆ files ++ files' := subset_append_right _ _
  constructor
  · intro h
    refine map_injective_of_mem (fun e he e' he' => ?_)
      (joinLines_injective (hline files hleft) (hline files' hright) h)
    exact CasStore.entryLine_inj (hentry files hleft e he).1.1 (hentry files' hright e' he').1.1
  · intro h
    rw [manifestOf, manifestOf, h]

/-! ## What the hash tells -/

/-- The entry that the map has for a path. -/
def entryAt (files : List FileInput) (path : Text) : Text × Text × ℕ :=
  match fileAt files path with
  | some (mode, data) => (path, sha256 data, mode)
  | none => (path, [], 0)

/-- The entries are those of the map, in the order of the paths. -/
theorem map_entryAt_pathsOf (hnodup : (pathsOf files).Nodup) :
    (pathsOf files).map (entryAt files) = files.map shown := by
  rw [pathsOf, map_map]
  refine map_congr_left fun f hf => ?_
  have hat : fileAt files (cleanPath f.path) = some (f.mode.getD 0o644, f.data) :=
    (fileAt_eq_some_iff hnodup).mpr ⟨f, hf, rfl, rfl⟩
  show entryAt files (cleanPath f.path) = shown f
  rw [entryAt, hat]
  rfl

/-- The kinds of the entries are those of the paths. -/
theorem kind_map_entryAt (e : Text × Text × ℕ) (paths : List Text) :
    kind ListedBefore e (paths.map (entryAt files))
      = (kind Collates e.1 paths).map (entryAt files) := by
  have hfst : ∀ path, (entryAt files path).1 = path := by
    intro path
    rw [entryAt]
    split <;> rfl
  rw [kind, filter_map]
  refine congrArg (List.map _) (filter_congr fun path _ => ?_)
  show decide (Collates e.1 (entryAt files path).1 ∧ Collates (entryAt files path).1 e.1) = _
  rw [hfst]

/-- Of each kind, the listed entries have the paths that the files have. -/
theorem map_kind_shown (files : List FileInput) (e : Text × Text × ℕ) :
    (kind ListedBefore e (files.map shown)).map Prod.fst = kind Collates e.1 (pathsOf files) := by
  have hpaths : pathsOf files = (files.map shown).map Prod.fst := by
    rw [map_map]
    rfl
  rw [hpaths]
  exact (@filter_map _ _ Prod.fst
    (fun path => decide (Collates e.1 path ∧ Collates path e.1)) _).symm

/-- The map can be read off the entries, as no two contents have one hash. -/
theorem fileAt_of_subset (hnodup' : (pathsOf files').Nodup)
    (hcontents : ∀ f ∈ files, ∀ f' ∈ files', sha256 f.data = sha256 f'.data → f.data = f'.data)
    (hsub : files.map shown ⊆ files'.map shown) {path : Text} {file : ℕ × Bytes}
    (hat : fileAt files path = some file) : fileAt files' path = some file := by
  obtain ⟨f, hfind, rfl⟩ := Option.map_eq_some_iff.mp hat
  have hf : f ∈ files := mem_of_find?_eq_some hfind
  have hpath : cleanPath f.path = path := by simpa using find?_some hfind
  obtain ⟨f', hf', hshown⟩ := mem_map.mp (hsub (mem_map_of_mem hf))
  obtain ⟨hclean, hrest⟩ := Prod.mk.inj hshown
  obtain ⟨hhash, hmode⟩ := Prod.mk.inj hrest
  refine (fileAt_eq_some_iff hnodup').mpr ⟨f', hf', hclean.trans hpath, ?_⟩
  rw [hmode, ← hcontents f hf f' hf' hhash.symm]

/-- The entries are listed alike just if the lists have the same files, and the same order of those
that are not told apart. -/
theorem insertionSort_shown_iff (hcmp : Std.TransCmp (Runtime.localeCompare))
    (hnodup : (pathsOf files).Nodup) (hnodup' : (pathsOf files').Nodup)
    (hno : NoCollision files files') :
    (files.map shown).insertionSort ListedBefore
        = (files'.map shown).insertionSort ListedBefore ↔
      SameFiles files files' ∧ SameOrder files files' := by
  have : Std.Total ListedBefore := by
    refine ⟨fun e e' => ?_⟩
    show (Runtime.localeCompare e.1 e'.1).isLE = true ∨ (Runtime.localeCompare e'.1 e.1).isLE = true
    rw [@Std.OrientedCmp.eq_swap _ Runtime.localeCompare _ e'.1 e.1]
    cases Runtime.localeCompare e.1 e'.1 <;> simp
  have : IsTrans _ ListedBefore := ⟨fun e e' e'' => Std.TransCmp.isLE_trans⟩
  constructor
  · intro h
    have hperm : (files.map shown).Perm (files'.map shown) :=
      (perm_insertionSort ListedBefore _).symm.trans
        (h ▸ perm_insertionSort ListedBefore _)
    refine ⟨fun path => Option.ext fun file => ⟨?_, ?_⟩, fun path => ?_⟩
    · exact fileAt_of_subset hnodup' hno.contents hperm.subset
    · exact fileAt_of_subset hnodup
        (fun f' hf' f hf hhash => (hno.contents f hf f' hf' hhash.symm).symm) hperm.symm.subset
    · have hkind := insertionSort_eq_iff.mp h (path, [], 0)
      rw [← map_kind_shown files (path, [], 0), hkind, map_kind_shown]
  · rintro ⟨hsame, horder⟩
    refine insertionSort_eq_iff.mpr fun e => ?_
    have hentry : entryAt files = entryAt files' := by
      funext path
      rw [entryAt, entryAt, hsame path]
    calc kind ListedBefore e (files.map shown)
        = (kind Collates e.1 (pathsOf files)).map (entryAt files) := by
          rw [← map_entryAt_pathsOf hnodup, kind_map_entryAt]
      _ = (kind Collates e.1 (pathsOf files')).map (entryAt files') := by
          rw [horder e.1, hentry]
      _ = kind ListedBefore e (files'.map shown) := by
          rw [← map_entryAt_pathsOf hnodup', kind_map_entryAt]

/-- Different entries can have one text of lines, where a path goes on with lines of its own. -/
def Forged (files files' : List FileInput) : Prop :=
  ¬ NewlineFree (files ++ files') ∧
    (files.map shown).insertionSort ListedBefore
      ≠ (files'.map shown).insertionSort ListedBefore ∧
    manifestOf files = manifestOf files'

/-- The hash tells the files, the order of those not told apart, and no more than the lines. -/
theorem treeHash_eq_iff (hcmp : Std.TransCmp (Runtime.localeCompare))
    (hnodup : (pathsOf files).Nodup) (hnodup' : (pathsOf files').Nodup)
    (hno : NoCollision files files') (s s' : CasStore) :
    CasStore.treeHashOf (s.putTree files).1 = CasStore.treeHashOf (s'.putTree files').1 ↔
      (SameFiles files files' ∧ SameOrder files files') ∨ Forged files files' := by
  rw [treeHashOf_putTree, treeHashOf_putTree, ← insertionSort_shown_iff hcmp hnodup hnodup' hno]
  constructor
  · intro h
    have hmanifest := hno.manifests h
    by_cases hlisted : (files.map shown).insertionSort ListedBefore
        = (files'.map shown).insertionSort ListedBefore
    · exact .inl hlisted
    · refine .inr ⟨fun hfree => ?_, hlisted, hmanifest⟩
      exact hlisted ((manifestOf_eq_iff hno hfree).mp hmanifest)
  · rintro (hlisted | hforged)
    · rw [manifestOf, manifestOf, hlisted]
    · rw [hforged.2.2]

end

section

open Plain

theorem transCmp_plain : Std.TransCmp (Runtime.localeCompare) :=
  Std.TransOrd.compareOfLessAndEq_of_antisymm_of_trans_of_total_of_not_le
    (α := List UInt16) List.le_antisymm List.le_trans List.le_total List.not_le

def fileOf (path : String) (data : Bytes) : FileInput := ⟨text path, data, none⟩

end

end Lumi.Cas
