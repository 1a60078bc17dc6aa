import Lumi.Lib.JsValue

/-!
# The segments of a shell command

`parseCommandSegments` groups the tokens of a command line into segments, each checked on its own.
It cuts them at `;`, `&&`, `||`, `|` and at parentheses that it balances itself.  What comes out is
the runs of words between these (`has_process_iff`), where a shell begins a new command at more
places than that (`commandRuns`).

The tokens come from a parser that is not part of the source.
-/

namespace Lumi.Permissions

open Js List

/-- The operators of a token.  The parser knows no token for `>(`. -/
inductive Operator
  | semi
  | amp
  | andAnd
  | orOr
  | pipe
  | pipeAmp
  | semiSemi
  | openParen
  | closeParen
  /-- `<(` -/
  | lessParen
  /-- `>(` -/
  | greaterParen
  | less
  | greater
  | append
  | hereString
  | lessAmp
  | greaterAmp
  deriving DecidableEq

inductive ParseEntry
  | word (s : Text)
  | glob (pattern : Text)
  | op (operator : Operator)
  | comment (comment : Text)
  deriving DecidableEq

def redirectOperators : List Operator :=
  [.greater, .append, .less, .greaterAmp, .lessAmp, .pipeAmp, .lessParen, .greaterParen]

def commandSeparatorOperators : List Operator := [.andAnd, .orOr, .pipe, .semi]

structure ParsedCommand where
  segments : List Text
  subshells : List ParsedCommand
  hasRedirects : Bool

def ParsedCommand.empty : ParsedCommand := ⟨[], [], false⟩

def flushSegment (parts : List Text) (result : ParsedCommand) : ParsedCommand :=
  if parts = [] then result
  else { result with segments := result.segments ++ [joinWith (text " ") parts] }

/-- The number of open parentheses after a token. -/
def balanceAfter (balance : ℕ) : ParseEntry → ℕ
  | .op .openParen => balance + 1
  | .op .closeParen => balance - 1
  | _ => balance

/-- The tokens up to the parenthesis that closes the last of `balance` open ones, and those after
it. -/
def subTokens : ℕ → List ParseEntry → List ParseEntry × List ParseEntry
  | _, [] => ([], [])
  | balance, token :: rest =>
    if balanceAfter balance token = 0 then ([], rest)
    else
      let inner := subTokens (balanceAfter balance token) rest
      (token :: inner.1, inner.2)

theorem length_subTokens (tokens : List ParseEntry) : ∀ balance,
    (subTokens balance tokens).1.length ≤ tokens.length
      ∧ (subTokens balance tokens).2.length ≤ tokens.length := by
  induction tokens with
  | nil => exact fun _ => ⟨Nat.le_refl _, Nat.le_refl _⟩
  | cons token rest ih =>
    intro balance
    rw [subTokens]
    split
    · exact ⟨Nat.zero_le _, Nat.le_succ _⟩
    · exact ⟨Nat.succ_le_succ (ih _).1, Nat.le_succ_of_le (ih _).2⟩

/-- The loop over the tokens, with the parts of the open segment. -/
def processFrom (parts : List Text) (result : ParsedCommand) : List ParseEntry → ParsedCommand
  | [] => flushSegment parts result
  | .op .openParen :: rest =>
    let flushed := flushSegment parts result
    have := length_subTokens rest 1
    processFrom []
      { flushed with
        subshells := flushed.subshells ++ [processFrom [] .empty (subTokens 1 rest).1] }
      (subTokens 1 rest).2
  | .op operator :: rest =>
    if operator ∈ commandSeparatorOperators then processFrom [] (flushSegment parts result) rest
    else if operator ∈ redirectOperators then
      processFrom parts { result with hasRedirects := true } rest
    else processFrom parts result rest
  | .word s :: rest => processFrom (parts ++ [s]) result rest
  | .glob pattern :: rest => processFrom (parts ++ [pattern]) result rest
  | .comment _ :: rest => processFrom parts result rest
  termination_by tokens => tokens.length
  decreasing_by all_goals simp only [List.length_cons]; omega

/-- Without tokens there are no segments either. -/
def parseCommandSegments (parse : Text → Except Text (List ParseEntry)) (input : Text) :
    ParsedCommand :=
  match parse input with
  | .ok tokens => processFrom [] .empty tokens
  | .error _ => .empty

/-- A segment of the command, or of one of its subshells, at any depth. -/
inductive ParsedCommand.Has (segment : Text) : ParsedCommand → Prop
  | here {parsed : ParsedCommand} (h : segment ∈ parsed.segments) : Has segment parsed
  | inner {parsed subshell : ParsedCommand} (h : subshell ∈ parsed.subshells)
      (hsubshell : Has segment subshell) : Has segment parsed

/-- A redirect of the command, or in one of its subshells, at any depth. -/
inductive ParsedCommand.Redirects : ParsedCommand → Prop
  | here {parsed : ParsedCommand} (h : parsed.hasRedirects = true) : Redirects parsed
  | inner {parsed subshell : ParsedCommand} (h : subshell ∈ parsed.subshells)
      (hsubshell : Redirects subshell) : Redirects parsed

/-! ## Runs of words -/

/-- Does a shell begin a new command after the operator?  The others are redirections. -/
def Operator.isControl : Operator → Bool
  | .less | .greater | .append | .hereString | .lessAmp | .greaterAmp => false
  | _ => true

/-- How deep in parentheses the tokens after the operator stand. -/
def Operator.nest (depth : ℕ) : Operator → ℕ
  | .openParen => depth + 1
  | .closeParen => depth - 1
  | _ => depth

def flushed (parts : List Text) : List Text :=
  if parts = [] then [] else [joinWith (text " ") parts]

/-- The runs of words between the operators that cut, at some depth, with the words before. -/
def runsFrom (cuts : ℕ → Operator → Bool) : ℕ → List Text → List ParseEntry → List Text
  | _, parts, [] => flushed parts
  | depth, parts, .word s :: rest => runsFrom cuts depth (parts ++ [s]) rest
  | depth, parts, .glob pattern :: rest => runsFrom cuts depth (parts ++ [pattern]) rest
  | depth, parts, .comment _ :: rest => runsFrom cuts depth parts rest
  | depth, parts, .op operator :: rest =>
    if cuts depth operator then flushed parts ++ runsFrom cuts (operator.nest depth) [] rest
    else runsFrom cuts (operator.nest depth) parts rest

section

variable (tokens : List ParseEntry)

/-- The runs of words between control operators and parentheses. -/
def commandRuns : List Text :=
  runsFrom (fun _ operator => operator.isControl) 0 [] tokens

/-- `;`, `&&`, `||`, `|`, a parenthesis that opens, and one that closes an open one. -/
def pairedCuts (depth : ℕ) (operator : Operator) : Bool :=
  operator ∈ commandSeparatorOperators || operator = .openParen
    || (operator = .closeParen && 0 < depth)

/-- The runs of words between these operators only. -/
def pairedRuns : List Text := runsFrom pairedCuts 0 [] tokens

/-! ## The segments are the runs between separators and paired parentheses -/

section

variable {cuts : ℕ → Operator → Bool} {depth : ℕ} {parts : List Text} {operator : Operator}
  {rest : List ParseEntry}

theorem runsFrom_cut (h : cuts depth operator = true) :
    runsFrom cuts depth parts (.op operator :: rest)
      = flushed parts ++ runsFrom cuts (operator.nest depth) [] rest := by
  rw [runsFrom, if_pos h]

theorem runsFrom_skip (h : cuts depth operator = false) :
    runsFrom cuts depth parts (.op operator :: rest)
      = runsFrom cuts (operator.nest depth) parts rest := by
  rw [runsFrom, if_neg (by rw [h]; exact Bool.false_ne_true)]

theorem pairedCuts_close (depth : ℕ) : pairedCuts (depth + 1) .closeParen = true :=
  Bool.or_eq_true_iff.mpr (.inr (by simp))

section

variable (hopen : operator ≠ .openParen)
include hopen

theorem pairedCuts_other (hclose : operator ≠ .closeParen ∨ depth = 0) :
    pairedCuts depth operator = decide (operator ∈ commandSeparatorOperators) := by
  rcases hclose with h | h <;> simp [pairedCuts, hopen, h]

theorem nest_other (hclose : operator ≠ .closeParen ∨ depth = 0) : operator.nest depth = depth := by
  cases operator with
  | openParen => exact absurd rfl hopen
  | closeParen => exact (hclose.resolve_left fun h => h rfl) ▸ rfl
  | _ => rfl

theorem subTokens_other (hclose : operator ≠ .closeParen) (balance : ℕ) :
    subTokens (balance + 1) (.op operator :: rest)
      = (.op operator :: (subTokens (balance + 1) rest).1, (subTokens (balance + 1) rest).2) := by
  cases operator with
  | openParen => exact absurd rfl hopen
  | closeParen => exact absurd rfl hclose
  | _ => rfl

end

end

/-- What stands in parentheses is read on its own, then what comes after. -/
theorem runsFrom_subTokens : ∀ balance depth parts,
    runsFrom pairedCuts (depth + (balance + 1)) parts tokens
      = runsFrom pairedCuts balance parts (subTokens (balance + 1) tokens).1
        ++ runsFrom pairedCuts depth [] (subTokens (balance + 1) tokens).2 := by
  induction tokens with
  | nil => exact fun _ _ parts => (append_nil (flushed parts)).symm
  | cons token rest ih =>
    intro balance depth parts
    cases token with
    | word s => exact ih balance depth _
    | glob pattern => exact ih balance depth _
    | comment comment => exact ih balance depth _
    | op operator =>
      by_cases hopen : operator = .openParen
      · subst hopen
        show flushed parts ++ runsFrom pairedCuts (depth + (balance + 1 + 1)) [] rest
          = flushed parts ++ runsFrom pairedCuts (balance + 1) []
              (subTokens (balance + 1 + 1) rest).1
            ++ runsFrom pairedCuts depth [] (subTokens (balance + 1 + 1) rest).2
        rw [ih, append_assoc]
      · by_cases hclose : operator = .closeParen
        · subst hclose
          rw [← Nat.add_assoc, runsFrom_cut (pairedCuts_close _)]
          cases balance with
          | zero => rfl
          | succ balance =>
            show flushed parts ++ runsFrom pairedCuts (depth + (balance + 1)) [] rest
              = runsFrom pairedCuts (balance + 1) parts
                  (.op .closeParen :: (subTokens (balance + 1) rest).1)
                ++ runsFrom pairedCuts depth [] (subTokens (balance + 1) rest).2
            rw [ih, runsFrom_cut (pairedCuts_close _), append_assoc]
            rfl
        · rw [subTokens_other hopen hclose]
          have hcuts : ∀ depth, _ := fun depth =>
            @pairedCuts_other depth operator hopen (.inl hclose)
          have hnest : ∀ depth, operator.nest depth = depth := fun depth =>
            nest_other hopen (.inl hclose)
          by_cases hseparator : operator ∈ commandSeparatorOperators
          · rw [runsFrom_cut ((hcuts _).trans (decide_eq_true hseparator)),
              runsFrom_cut ((hcuts _).trans (decide_eq_true hseparator)), hnest, hnest, ih,
              append_assoc]
          · rw [runsFrom_skip ((hcuts _).trans (decide_eq_false hseparator)),
              runsFrom_skip ((hcuts _).trans (decide_eq_false hseparator)), hnest, hnest, ih]

end

variable {segment : Text}

theorem has_flushSegment {parts : List Text} {result : ParsedCommand} :
    (flushSegment parts result).Has segment ↔ result.Has segment ∨ segment ∈ flushed parts := by
  rw [flushSegment, flushed]
  split
  · simp
  · constructor
    · rintro (h | ⟨h, hinner⟩)
      · rcases mem_append.mp h with h | h
        · exact .inl (.here h)
        · exact .inr h
      · exact .inl (.inner h hinner)
    · rintro ((h | ⟨h, hinner⟩) | h)
      · exact .here (mem_append_left _ h)
      · exact .inner h hinner
      · exact .here (mem_append_right _ h)

theorem has_addSubshell {result subshell : ParsedCommand} :
    ({ result with subshells := result.subshells ++ [subshell] } : ParsedCommand).Has segment
      ↔ result.Has segment ∨ subshell.Has segment := by
  constructor
  · rintro (h | ⟨h, hinner⟩)
    · exact .inl (.here h)
    · rcases mem_append.mp h with h | h
      · exact .inl (.inner h hinner)
      · exact .inr (mem_singleton.mp h ▸ hinner)
  · rintro ((h | ⟨h, hinner⟩) | h)
    · exact .here h
    · exact .inner (mem_append_left _ h) hinner
    · exact .inner (mem_append_right _ mem_cons_self) h

theorem has_redirect {result : ParsedCommand} :
    ({ result with hasRedirects := true } : ParsedCommand).Has segment ↔ result.Has segment := by
  constructor
  · rintro (h | ⟨h, hinner⟩)
    · exact .here h
    · exact .inner h hinner
  · rintro (h | ⟨h, hinner⟩)
    · exact .here h
    · exact .inner h hinner

theorem not_has_empty : ¬ ParsedCommand.empty.Has segment := by
  rintro (h | ⟨h, -⟩)
  · exact absurd h not_mem_nil
  · exact absurd h not_mem_nil

theorem has_processFrom_iff (parts : List Text) (result : ParsedCommand) (tokens : List ParseEntry) :
    (processFrom parts result tokens).Has segment
      ↔ result.Has segment ∨ segment ∈ runsFrom pairedCuts 0 parts tokens := by
  fun_induction processFrom parts result tokens with
  | case1 parts result => exact has_flushSegment
  | case2 parts result rest flushed' _ ihinner ihrest =>
    rw [ihrest, has_addSubshell, ihinner, has_flushSegment, or_iff_right not_has_empty]
    show _ ↔ _ ∨ segment ∈ flushed parts ++ runsFrom pairedCuts (0 + (0 + 1)) [] rest
    rw [runsFrom_subTokens, mem_append, mem_append, or_assoc, or_assoc]
  | case3 parts result operator rest hopen hseparator ih =>
    have hcuts := @pairedCuts_other 0 operator hopen (.inr rfl)
    rw [ih, has_flushSegment, runsFrom_cut (hcuts.trans (decide_eq_true hseparator)),
      nest_other hopen (.inr rfl), mem_append, or_assoc]
  | case4 parts result operator rest hopen hseparator _ ih =>
    have hcuts := @pairedCuts_other 0 operator hopen (.inr rfl)
    rw [ih, has_redirect, runsFrom_skip (hcuts.trans (decide_eq_false hseparator)),
      nest_other hopen (.inr rfl)]
  | case5 parts result operator rest hopen hseparator _ ih =>
    have hcuts := @pairedCuts_other 0 operator hopen (.inr rfl)
    rw [ih, runsFrom_skip (hcuts.trans (decide_eq_false hseparator)),
      nest_other hopen (.inr rfl)]
  | case6 parts result s rest ih => exact ih
  | case7 parts result pattern rest ih => exact ih
  | case8 parts result comment rest ih => exact ih

/-- The segments of a command, at all depths, are its runs between separators and paired
parentheses. -/
theorem has_process_iff {tokens : List ParseEntry} :
    (processFrom [] .empty tokens).Has segment ↔ segment ∈ pairedRuns tokens :=
  (has_processFrom_iff [] .empty tokens).trans (or_iff_right not_has_empty)

end Lumi.Permissions
