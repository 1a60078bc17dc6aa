import Mathlib.Data.List.Chain
import Mathlib.Data.List.Nodup

/-!
# Dialogues of questions and answers

Two parties take turns; a turn asks questions, answers those of the turn before it, and holds
other parts.  A request is well formed if every question but those of the last turn is answered
exactly once, in the next turn, and every answer has its question.

A pass that repairs each turn after the one before it can restore this where a turn was cut out.
What the pass does to one pair of turns is a `Repairs`; `wellFormed_repairAll_iff` says for a
whole dialogue what is left to be asked of it.
-/

open List

namespace Dialogue
inductive Role
  | user
  | assistant
  deriving DecidableEq

inductive Part (ι : Type*)
  | ask (id : ι)
  | answer (id : ι)
  | other
  deriving DecidableEq

namespace Part

variable {ι : Type*}

def ask? : Part ι → Option ι
  | ask id => some id
  | _ => none

def answer? : Part ι → Option ι
  | answer id => some id
  | _ => none

@[simp] theorem ask?_ask (id : ι) : (ask id).ask? = some id := rfl

@[simp] theorem ask?_answer (id : ι) : (answer id).ask? = none := rfl

@[simp] theorem ask?_other : (other : Part ι).ask? = none := rfl

@[simp] theorem answer?_ask (id : ι) : (ask id).answer? = none := rfl

@[simp] theorem answer?_answer (id : ι) : (answer id).answer? = some id := rfl

@[simp] theorem answer?_other : (other : Part ι).answer? = none := rfl

end Part

structure Turn (ι : Type*) where
  role : Role
  parts : List (Part ι)
  deriving DecidableEq

namespace Turn

variable {ι : Type*}

section

variable (turn : Turn ι)

def asks : List ι := turn.parts.filterMap (·.ask?)

def answers : List ι := turn.parts.filterMap (·.answer?)

/-- The turn has a part that is no answer. -/
def HasMore : Prop :=
  ∃ part ∈ turn.parts, ∀ id, part ≠ .answer id

/-- The turn without its answers. -/
def withoutAnswers : Turn ι :=
  { turn with parts := turn.parts.filter (·.answer?.isNone) }

@[simp] theorem role_withoutAnswers : turn.withoutAnswers.role = turn.role := rfl

@[simp] theorem answers_withoutAnswers : turn.withoutAnswers.answers = [] := by
  refine filterMap_eq_nil_iff.mpr fun part hpart => ?_
  cases part with
  | ask id => rfl
  | answer id => simp [withoutAnswers] at hpart
  | other => rfl

@[simp] theorem asks_withoutAnswers : turn.withoutAnswers.asks = turn.asks := by
  unfold asks withoutAnswers
  rw [filterMap_filter]
  refine filterMap_congr fun part _ => ?_
  cases part with
  | ask id => rfl
  | answer id => rfl
  | other => rfl

end

theorem parts_withoutAnswers_ne_nil_iff {turn : Turn ι} :
    turn.withoutAnswers.parts ≠ [] ↔ turn.HasMore := by
  rw [withoutAnswers, Ne, filter_eq_nil_iff]
  push Not
  refine exists_congr fun part => and_congr_right fun _ => ?_
  cases part <;> simp

end Turn

variable {ι : Type*} [DecidableEq ι]

/-- The questions of the one turn and the answers of the next belong together. -/
def Paired (a b : Turn ι) : Prop :=
  (∀ id ∈ a.asks, b.answers.count id = 1) ∧ ∀ id ∈ b.answers, id ∈ a.asks

instance (a b : Turn ι) : Decidable (Paired a b) := inferInstanceAs (Decidable (_ ∧ _))

/-- Where no question is answered twice, each must only be answered. -/
theorem paired_iff_of_nodup {a b : Turn ι} (h : b.answers.Nodup) :
    Paired a b ↔ (∀ id ∈ a.asks, id ∈ b.answers) ∧ ∀ id ∈ b.answers, id ∈ a.asks := by
  refine and_congr_left fun _ => forall₂_congr fun id _ => ?_
  constructor
  · intro hcount
    apply count_pos_iff.mp
    omega
  · exact count_eq_one_of_mem h

/-- What the other side accepts. -/
structure WellFormed (turns : List (Turn ι)) : Prop where
  startsWithUser : turns.head?.map (·.role) = some .user
  alternates : turns.IsChain fun a b => a.role ≠ b.role
  nonEmpty : ∀ turn ∈ turns, turn.parts ≠ []
  noFirstAnswers : ∀ first ∈ turns.head?, first.answers = []
  paired : turns.IsChain Paired

/-- The answers of a user are to different questions of the turn before. -/
def Answers (a b : Turn ι) : Prop :=
  b.role = .user → b.answers.Nodup ∧ ∀ id ∈ b.answers, id ∈ a.asks

instance (a b : Turn ι) : Decidable (Answers a b) :=
  inferInstanceAs (Decidable (_ = _ → _ ∧ _))

/-- What is recorded: questions may be left without an answer. -/
structure History (turns : List (Turn ι)) : Prop where
  startsWithUser : turns.head?.map (·.role) = some .user
  alternates : turns.IsChain fun a b => a.role ≠ b.role
  nonEmpty : ∀ turn ∈ turns, turn.parts ≠ []
  distinct : (turns.flatMap (·.asks)).Nodup
  noFirstAnswers : ∀ first ∈ turns.head?, first.answers = []
  answers : turns.IsChain Answers

namespace History

variable {turns : List (Turn ι)} (h : History turns)
include h
omit [DecidableEq ι]

/-- The roles alternate by the parity of the places. -/
theorem role_getElem {i : ℕ} (hi : i < turns.length) :
    turns[i].role = if i % 2 = 0 then .user else .assistant := by
  induction i with
  | zero =>
    have hstarts := h.startsWithUser
    rw [head?_eq_getElem?, getElem?_eq_getElem hi] at hstarts
    simpa using hstarts
  | succ i ih =>
    have ih := ih (by omega)
    have halternates := isChain_iff_getElem.mp h.alternates i hi
    rw [ih] at halternates
    cases hrole : turns[i + 1].role with
    | user =>
      rw [hrole] at halternates
      rw [if_pos (by split_ifs at halternates <;> first | contradiction | omega)]
    | assistant =>
      rw [hrole] at halternates
      rw [if_neg (by split_ifs at halternates <;> first | contradiction | omega)]

theorem nodup_asks {turn : Turn ι} (hturn : turn ∈ turns) : turn.asks.Nodup :=
  (nodup_flatMap.mp h.distinct).1 turn hturn

/-- What is recorded first is a history too. -/
theorem front {front rest : List (Turn ι)} (heq : turns = front ++ rest) (hne : front ≠ []) :
    History front := by
  subst heq
  obtain ⟨first, front, rfl⟩ := exists_cons_of_ne_nil hne
  refine ⟨h.startsWithUser, h.alternates.left_of_append, fun turn hturn => ?_, ?_,
    h.noFirstAnswers, h.answers.left_of_append⟩
  · exact h.nonEmpty turn (mem_append_left _ hturn)
  · have hdistinct := h.distinct
    rw [flatMap_append] at hdistinct
    exact hdistinct.of_append_left

end History

/-! ## Repairs -/

/-- What a repair makes of the turn `b` after the turn `a`.  It does not see the questions that
are `unseen`. -/
structure Repairs (unseen : ι → Prop) (a b b' : Turn ι) : Prop where
  role : b'.role = b.role
  asks : b'.asks = b.asks
  ofUser : a.role = .user → b' = b
  paired : a.role = .assistant → b.role = .user → a.asks.Nodup → Answers a b →
    (Paired a b' ↔ ∀ id ∈ a.asks, unseen id → id ∈ b.answers)
  parts : a.role = .assistant → b.role = .user →
    (b'.parts ≠ [] ↔ b.parts ≠ [] ∨ ∃ id ∈ a.asks, ¬unseen id)

/-- What must hold of two turns for the repaired ones to belong together. -/
def Answerable (unseen : ι → Prop) (a b : Turn ι) : Prop :=
  (a.role = .user → Paired a b) ∧
  (a.role = .assistant → ∀ id ∈ a.asks, unseen id → id ∈ b.answers)

instance (unseen : ι → Prop) [DecidablePred unseen] (a b : Turn ι) :
    Decidable (Answerable unseen a b) :=
  inferInstanceAs (Decidable ((_ = _ → _) ∧ (_ = _ → _)))

/-- What must hold of two turns for the second not to stay empty. -/
def Fillable (unseen : ι → Prop) (a b : Turn ι) : Prop :=
  b.parts ≠ [] ∨ (a.role = .assistant ∧ ∃ id ∈ a.asks, ¬unseen id)

/-- Two turns after a repair of the second.  The first counts with its role and its questions
only, and an earlier repair has kept both. -/
theorem Repairs.belong_iff {unseen : ι → Prop} {previous original next next' : Turn ι}
    (h : Repairs unseen previous next next') (hrole : previous.role = original.role)
    (hasks : previous.asks = original.asks) (halternate : original.role ≠ next.role)
    (hanswers : Answers original next) (hnodup : original.asks.Nodup) :
    (Paired previous next' ∧ next'.parts ≠ []) ↔
      Answerable unseen original next ∧ Fillable unseen original next := by
  cases hside : original.role with
  | user =>
    rw [h.ofUser (hrole.trans hside)]
    simp only [Paired, Answerable, Fillable, hside, hasks, forall_const, reduceCtorEq,
      false_implies, false_and, or_false, and_true]
  | assistant =>
    have hnext : next.role = .user := by
      cases hnext : next.role with
      | user => rfl
      | assistant => exact absurd (hside.trans hnext.symm) halternate
    have hprevious := hrole.trans hside
    have hanswers : Answers previous next := by
      rw [Answers, hasks]
      exact hanswers
    rw [h.paired hprevious hnext (by rw [hasks]; exact hnodup) hanswers,
      h.parts hprevious hnext, hasks]
    simp only [Answerable, Fillable, hside, forall_const, reduceCtorEq, false_implies, true_and]

theorem isChain_and_iff {α : Type*} {R S : α → α → Prop} {l : List α} :
    l.IsChain (fun a b => R a b ∧ S a b) ↔ l.IsChain R ∧ l.IsChain S := by
  constructor
  · exact fun h => ⟨h.imp fun _ _ => And.left, h.imp fun _ _ => And.right⟩
  · rintro ⟨hR, hS⟩
    induction hR with
    | nil => exact .nil
    | singleton a => exact .singleton a
    | cons_cons hab _ ih =>
      obtain ⟨hab', hS⟩ := isChain_cons_cons.mp hS
      exact .cons_cons ⟨hab, hab'⟩ (ih hS)

theorem isChain_right_iff {α : Type*} {P : α → Prop} {first : α} {rest : List α} :
    (first :: rest).IsChain (fun _ b => P b) ↔ ∀ b ∈ rest, P b := by
  induction rest generalizing first with
  | nil => simp
  | cons next rest ih => rw [isChain_cons_cons, ih, forall_mem_cons]

section

variable {τ : Type*} (repair : τ → τ → τ)

/-- Each message is repaired after the one before it. -/
def repairFrom (previous : τ) : List τ → List τ
  | [] => []
  | next :: rest => repair previous next :: repairFrom (repair previous next) rest

def repairAll : List τ → List τ
  | [] => []
  | first :: rest => first :: repairFrom repair first rest

variable {repair} {unseen : ι → Prop} {turn : τ → Turn ι}
  (hrepair : ∀ a b, Repairs unseen (turn a) (turn b) (turn (repair a b)))
include hrepair

theorem belong_repairFrom_iff {previous original : τ} {rest : List τ}
    (hrole : (turn previous).role = (turn original).role)
    (hasks : (turn previous).asks = (turn original).asks)
    (halternates : ((original :: rest).map turn).IsChain fun a b => a.role ≠ b.role)
    (hanswers : ((original :: rest).map turn).IsChain Answers)
    (hnodup : ∀ message ∈ original :: rest, (turn message).asks.Nodup) :
    (((previous :: repairFrom repair previous rest).map turn).IsChain fun a b =>
        Paired a b ∧ b.parts ≠ []) ↔
      ((original :: rest).map turn).IsChain fun a b =>
        Answerable unseen a b ∧ Fillable unseen a b := by
  induction rest generalizing previous original with
  | nil => simp [repairFrom]
  | cons next rest ih =>
    simp only [repairFrom, map_cons, isChain_cons_cons] at halternates hanswers ⊢
    refine and_congr ?_ (ih (hrepair _ _).role (hrepair _ _).asks halternates.2 hanswers.2
      fun message hmem => hnodup message (mem_cons_of_mem _ hmem))
    exact (hrepair previous next).belong_iff hrole hasks halternates.1 hanswers.1
      (hnodup original mem_cons_self)

theorem role_repairFrom {previous : τ} {rest : List τ} :
    (repairFrom repair previous rest).map (fun message => (turn message).role) =
      rest.map fun message => (turn message).role := by
  induction rest generalizing previous with
  | nil => rfl
  | cons next rest ih => rw [repairFrom, map_cons, map_cons, ih, (hrepair _ _).role]

/-- **What is left to be asked of a dialogue whose turns are repaired.** -/
theorem wellFormed_repairAll_iff {messages : List τ}
    (hstarts : (messages.map turn).head?.map (·.role) = some .user)
    (halternates : (messages.map turn).IsChain fun a b => a.role ≠ b.role)
    (hfirst : ∀ first ∈ (messages.map turn).head?, first.answers = [] ∧ first.parts ≠ [])
    (hanswers : (messages.map turn).IsChain Answers)
    (hnodup : ∀ message ∈ messages, (turn message).asks.Nodup) :
    WellFormed ((repairAll repair messages).map turn) ↔
      (messages.map turn).IsChain fun a b => Answerable unseen a b ∧ Fillable unseen a b := by
  cases messages with
  | nil => cases hstarts
  | cons first rest =>
    have hbelong := @belong_repairFrom_iff _ _ _ _ _ _ hrepair first first rest rfl rfl halternates
      hanswers hnodup
    rw [← hbelong]
    have hroles : ((first :: repairFrom repair first rest).map turn).map (·.role) =
        ((first :: rest).map turn).map (·.role) := by
      simp only [map_map, map_cons, List.cons.injEq, true_and]
      exact role_repairFrom hrepair
    have halternates : ((first :: repairFrom repair first rest).map turn).IsChain
        fun a b => a.role ≠ b.role := by
      rw [← isChain_map (R := (· ≠ ·)) (fun turn : Turn ι => turn.role)] at halternates ⊢
      rw [hroles]
      exact halternates
    obtain ⟨hnone, hparts⟩ := hfirst (turn first) rfl
    constructor
    · intro hwell
      refine isChain_and_iff.mpr ⟨hwell.paired, ?_⟩
      exact isChain_right_iff.mpr fun b hb => hwell.nonEmpty b (mem_cons_of_mem _ hb)
    · intro hchain
      obtain ⟨hpaired, hrest⟩ := isChain_and_iff.mp hchain
      refine ⟨hstarts, halternates, ?_, ?_, hpaired⟩
      · exact forall_mem_cons.mpr ⟨hparts, isChain_right_iff.mp hrest⟩
      · rintro _ ⟨⟩
        exact hnone

end

end Dialogue
