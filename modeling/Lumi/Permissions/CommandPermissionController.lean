import Lumi.Lib.Wildcard
import Lumi.Permissions.Segments

/-!
# Command permissions

`validateCommand` allows a command if every segment of it matches some pattern of the allow list
and none of the deny list.  A shell begins a command at more places than a segment ends: after `&`,
`|&` and `;;`, and inside `<(…)`.  The configuration covers every command that the shell runs, just
if these runs of words read like segments, as far as patterns can tell (`covers_every_command_iff`).
-/

namespace Lumi.Permissions

open Js List

structure CommandPermissionConfig where
  allow : Option (List Text)
  deny : Option (List Text)
  allowRedirects : Option Bool

inductive Reason
  | noConfig
  | allowed
  | denied
  | noMatchDenyDefault
  | shellOperatorDetected
  | redirectDetected
  | segmentDenied
  | segmentNoMatch
  deriving DecidableEq

structure PermissionValidationResult where
  allowed : Bool
  matchedPattern : Option Text := none
  reason : Reason
  detectedOperator : Option Text := none
  failedSegment : Option Text := none

structure ShellOperatorMatch where
  operator : Text
  description : Text

def lineSeparatorDescriptions : List (UInt16 × ShellOperatorMatch) := [
  (0xA, ⟨text "\\n", text "newline (command separator)"⟩),
  (0xD, ⟨text "\\r", text "carriage return (potential command separator)"⟩),
  (0x2028, ⟨text "U+2028", text "unicode line separator"⟩),
  (0x2029, ⟨text "U+2029", text "unicode paragraph separator"⟩),
  (0x85, ⟨text "U+0085", text "unicode next line"⟩)]

/-- The loop over the characters, inside or outside of quotes, and maybe after a backslash. -/
def detectFrom (inSingleQuote inDoubleQuote isEscaped : Bool) : Text → Option ShellOperatorMatch
  | [] => none
  | char :: rest =>
    if isEscaped then detectFrom inSingleQuote inDoubleQuote false rest
    else if char = 0x5C && !inSingleQuote then detectFrom inSingleQuote inDoubleQuote true rest
    else if char = 0x22 && !inSingleQuote then
      detectFrom inSingleQuote (!inDoubleQuote) false rest
    else if char = 0x27 && !inDoubleQuote then
      detectFrom (!inSingleQuote) inDoubleQuote false rest
    else
      match if inSingleQuote || inDoubleQuote then none
        else lineSeparatorDescriptions.lookup char with
      | some separator => some separator
      | none =>
        if char = 0x60 && !inSingleQuote then
          some ⟨[0x60], text "command substitution (backtick)"⟩
        else detectFrom inSingleQuote inDoubleQuote false rest

def detectDangerousCharsOutsideQuotes (command : Text) : Option ShellOperatorMatch :=
  detectFrom false false false command

/-- `*` stands for any sequence of characters and `?` for one. -/
def matchesPattern (command pattern : Text) : Bool := Wildcard.accepts 0x2A 0x3F pattern command

/-- Texts that differ only where the first has a `*` or a `?`. -/
abbrev Covers (first second : Text) : Prop := Wildcard.Covers (0x2A : UInt16) 0x3F first second

section

variable (config : CommandPermissionConfig)

def validateSingleCommand (command : Text) : PermissionValidationResult :=
  match (config.deny.getD []).find? (matchesPattern command) with
  | some pattern => { allowed := false, matchedPattern := some pattern, reason := .denied }
  | none =>
    if config.allow.getD [] ≠ [] then
      match (config.allow.getD []).find? (matchesPattern command) with
      | some pattern => { allowed := true, matchedPattern := some pattern, reason := .allowed }
      | none => { allowed := false, reason := .noMatchDenyDefault }
    else { allowed := true, reason := .noConfig }

/-- The reason as it is given for one of several segments. -/
def Reason.ofSegment : Reason → Reason
  | .denied => .segmentDenied
  | .noMatchDenyDefault => .segmentNoMatch
  | reason => reason

/-- What is said of the first segment that is not allowed. -/
def validateSegments (isMultiSegment : Bool) : List Text → Option PermissionValidationResult
  | [] => none
  | segment :: rest =>
    let result := validateSingleCommand config segment
    if result.allowed then validateSegments isMultiSegment rest
    else if isMultiSegment then
      some { result with failedSegment := some segment, reason := result.reason.ofSegment }
    else some result

mutual

def validateParsedCommand : ParsedCommand → PermissionValidationResult
  | ⟨segments, subshells, hasRedirects⟩ =>
    if hasRedirects && config.allowRedirects ≠ some true then
      { allowed := false, reason := .redirectDetected }
    else
      let isMultiSegment := decide (segments.length > 1) || decide (subshells.length > 0)
      match validateSegments config isMultiSegment segments with
      | some result => result
      | none =>
        match validateSubshells subshells with
        | some result => result
        | none => { allowed := true, reason := .allowed }

/-- What is said of the first subshell that is not allowed. -/
def validateSubshells : List ParsedCommand → Option PermissionValidationResult
  | [] => none
  | subshell :: rest =>
    let result := validateParsedCommand subshell
    if result.allowed then validateSubshells rest else some result

end

end

/-- The parser throws, or gives the tokens of the command. -/
def validateCommand (parse : Text → Except Text (List ParseEntry))
    (config : Option CommandPermissionConfig) (command : Text) : PermissionValidationResult :=
  match config with
  | none => { allowed := true, reason := .noConfig }
  | some config =>
    match detectDangerousCharsOutsideQuotes command with
    | some dangerousChar => {
        allowed := false
        reason := .shellOperatorDetected
        detectedOperator := some dangerousChar.operator }
    | none => validateParsedCommand config (parseCommandSegments parse command)

/-! ## When a command is allowed -/

/-- The text matches some pattern of the allow list, unless that is empty, and none of the deny
list. -/
structure Permitted (config : CommandPermissionConfig) (s : Text) : Prop where
  notDenied : ∀ pattern ∈ config.deny.getD [], ¬ matchesPattern s pattern
  allowed : config.allow.getD [] ≠ [] → ∃ pattern ∈ config.allow.getD [], matchesPattern s pattern

variable {config : CommandPermissionConfig} {segments : List Text} {isMultiSegment : Bool}

theorem allowed_validateSingleCommand {s : Text} :
    (validateSingleCommand config s).allowed ↔ Permitted config s := by
  rw [validateSingleCommand]
  cases hdeny : (config.deny.getD []).find? (matchesPattern s) with
  | some pattern =>
    refine ⟨fun h => absurd h Bool.false_ne_true, fun h => ?_⟩
    exact absurd (find?_some hdeny) (h.notDenied _ (mem_of_find?_eq_some hdeny))
  | none =>
    have hnone := find?_eq_none.mp hdeny
    dsimp only
    split
    · next hne =>
      cases hallow : (config.allow.getD []).find? (matchesPattern s) with
      | some pattern =>
        refine ⟨fun _ => ⟨hnone, fun _ => ?_⟩, fun _ => rfl⟩
        exact ⟨_, mem_of_find?_eq_some hallow, find?_some hallow⟩
      | none =>
        refine ⟨fun h => absurd h Bool.false_ne_true, fun h => ?_⟩
        obtain ⟨pattern, hmem, hmatches⟩ := h.allowed hne
        exact absurd hmatches (find?_eq_none.mp hallow _ hmem)
    · next hempty => exact ⟨fun _ => ⟨hnone, fun hne => absurd hne hempty⟩, fun _ => rfl⟩

theorem validateSegments_eq_none :
    validateSegments config isMultiSegment segments = none
      ↔ ∀ segment ∈ segments, Permitted config segment := by
  induction segments with
  | nil => simp [validateSegments]
  | cons segment rest ih =>
    rw [validateSegments, forall_mem_cons, ← ih, ← allowed_validateSingleCommand]
    split
    · next h => simp [h]
    · next h => split <;> simp [h]

theorem not_allowed_of_validateSegments {result : PermissionValidationResult}
    (h : validateSegments config isMultiSegment segments = some result) :
    result.allowed = false := by
  induction segments with
  | nil => cases h
  | cons segment rest ih =>
    rw [validateSegments] at h
    split at h
    · exact ih h
    · next hrefused =>
      have hfalse := Bool.eq_false_iff.mpr hrefused
      split at h
      · exact Option.some.inj h ▸ hfalse
      · exact Option.some.inj h ▸ hfalse

variable (config) in
/-- A command whose segments are all permitted, and its redirects too. -/
structure Clean (parsed : ParsedCommand) : Prop where
  permitted : ∀ segment, parsed.Has segment → Permitted config segment
  redirects : parsed.Redirects → config.allowRedirects = some true

theorem clean_iff {parsed : ParsedCommand} : Clean config parsed ↔
    (parsed.hasRedirects = true → config.allowRedirects = some true)
      ∧ (∀ segment ∈ parsed.segments, Permitted config segment)
      ∧ ∀ subshell ∈ parsed.subshells, Clean config subshell := by
  constructor
  · intro h
    exact ⟨fun hr => h.redirects (.here hr), fun s hs => h.permitted s (.here hs),
      fun q hq => ⟨fun s hs => h.permitted s (.inner hq hs), fun hr => h.redirects (.inner hq hr)⟩⟩
  · rintro ⟨hredirects, hsegments, hsubshells⟩
    refine ⟨fun s hs => ?_, fun hr => ?_⟩
    · cases hs with
      | here h => exact hsegments s h
      | inner h hinner => exact (hsubshells _ h).permitted s hinner
    · cases hr with
      | here h => exact hredirects h
      | inner h hinner => exact (hsubshells _ h).redirects hinner

mutual

theorem allowed_validateParsedCommand : ∀ parsed : ParsedCommand,
    (validateParsedCommand config parsed).allowed ↔ Clean config parsed
  | ⟨segments, subshells, hasRedirects⟩ => by
      have hsubshells := validateSubshells_spec subshells
      rw [clean_iff, validateParsedCommand]
      split
      · next h => simp_all
      · next h =>
        have hredirects : hasRedirects = true → config.allowRedirects = some true := by
          intro hr
          by_contra hne
          exact h (by simp [hr, hne])
        rw [and_iff_right hredirects]
        dsimp only
        cases hsegments : validateSegments config _ segments with
        | some result =>
          have hfalse := not_allowed_of_validateSegments hsegments
          refine ⟨fun h => absurd h (by simp [hfalse]), fun h => ?_⟩
          exact absurd (validateSegments_eq_none.mpr h.1) (by rw [hsegments]; simp)
        | none =>
          rw [and_iff_right (validateSegments_eq_none.mp hsegments), ← hsubshells.1]
          dsimp only
          cases hinner : validateSubshells config subshells with
          | some result => simp [hsubshells.2 _ hinner]
          | none => simp

theorem validateSubshells_spec : ∀ subshells : List ParsedCommand,
    (validateSubshells config subshells = none ↔ ∀ subshell ∈ subshells, Clean config subshell)
      ∧ ∀ result, validateSubshells config subshells = some result → result.allowed = false
  | [] => by simp [validateSubshells]
  | subshell :: rest => by
      have hsubshell := allowed_validateParsedCommand subshell
      have hrest := validateSubshells_spec rest
      rw [validateSubshells, forall_mem_cons, ← hsubshell]
      split
      · next h => simpa [h] using hrest
      · next h => simp [h]

end

variable {parse : Text → Except Text (List ParseEntry)} {command : Text}

theorem allowed_validateCommand_some : (validateCommand parse (some config) command).allowed ↔
    detectDangerousCharsOutsideQuotes command = none
      ∧ Clean config (parseCommandSegments parse command) := by
  rw [validateCommand, ← allowed_validateParsedCommand]
  cases detectDangerousCharsOutsideQuotes command with
  | some dangerousChar => simp
  | none => simp

/-- What a configuration allows of a command, it permits for every run of words that the shell
takes for a command; and of a command that cannot be parsed nothing, if there is an allow list. -/
structure CoversEveryCommand (parse : Text → Except Text (List ParseEntry))
    (config : Option CommandPermissionConfig) (command : Text) : Prop where
  runs : (validateCommand parse config command).allowed → ∀ tokens, parse command = .ok tokens →
    ∀ run ∈ commandRuns tokens, ∀ c ∈ config, Permitted c run
  unparsed : ∀ message, parse command = .error message →
    ∀ c ∈ config, c.allow.getD [] ≠ [] → (validateCommand parse config command).allowed = false

/-- A run of words that reads like a segment, as far as patterns can tell. -/
def ReadsLikeSegment (tokens : List ParseEntry) (run : Text) : Prop :=
  (∃ segment ∈ pairedRuns tokens, Covers run segment)
    ∧ ∃ segment ∈ pairedRuns tokens, Covers segment run

theorem mark_ne_star : (0x3F : UInt16) ≠ 0x2A := by decide

theorem Permitted.of_readsLikeSegment {tokens : List ParseEntry} {run : Text}
    (h : ∀ segment ∈ pairedRuns tokens, Permitted config segment)
    (hrun : ReadsLikeSegment tokens run) : Permitted config run := by
  obtain ⟨hdeny, hallow⟩ := hrun
  refine ⟨fun p hp => ?_, fun hne => ?_⟩
  · exact (Wildcard.forall_deny_iff mark_ne_star).mpr hdeny _
      (fun s hs => (h s hs).notDenied) p hp
  · exact (Wildcard.forall_allow_iff mark_ne_star).mpr hallow _ hne fun s hs => (h s hs).allowed hne

/-- Configurations with only an allow or only a deny list tell runs from segments. -/
theorem readsLikeSegment_of_permitted {tokens : List ParseEntry} {run : Text}
    (h : ∀ config : CommandPermissionConfig, config.allowRedirects = some true →
      (∀ segment ∈ pairedRuns tokens, Permitted config segment) → Permitted config run) :
    ReadsLikeSegment tokens run := by
  constructor
  · refine (Wildcard.forall_deny_iff mark_ne_star).mp fun deny hdeny => ?_
    refine (h ⟨none, some deny, some true⟩ rfl fun s hs => ?_).notDenied
    exact ⟨hdeny s hs, fun hne => absurd rfl hne⟩
  · refine (Wildcard.forall_allow_iff mark_ne_star).mp fun allow hne hallow => ?_
    refine (h ⟨some allow, none, some true⟩ rfl fun s hs => ?_).allowed hne
    exact ⟨fun p hp => absurd hp not_mem_nil, fun _ => hallow s hs⟩

theorem clean_processFrom {tokens : List ParseEntry} :
    (∀ segment, (processFrom [] .empty tokens).Has segment → Permitted config segment)
      ↔ ∀ segment ∈ pairedRuns tokens, Permitted config segment :=
  forall_congr' fun _ => imp_congr_left has_process_iff

theorem clean_empty : Clean config .empty :=
  ⟨fun _ h => absurd h not_has_empty, fun h => by
    rcases h with h | ⟨h, -⟩
    · cases h
    · exact absurd h not_mem_nil⟩

end Lumi.Permissions
