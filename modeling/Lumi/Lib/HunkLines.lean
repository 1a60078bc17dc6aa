import Lumi.Lib.JsText

/-!
# Hunks of a diff

A hunk is a run of lines that are kept, deleted or inserted.  Its old lines are those that
are kept or deleted, its new ones those that are kept or inserted; at its position it is the
edit that puts the new ones in the place of the old ones.
-/

/-- A line of a hunk. -/
inductive HunkLine (α : Type*)
  | context (line : α)
  | delete (line : α)
  | insert (line : α)

namespace HunkLine

variable {α : Type*}

def old? : HunkLine α → Option α
  | context line | delete line => some line
  | insert _ => none

def new? : HunkLine α → Option α
  | context line | insert line => some line
  | delete _ => none

/-- A line as a diff shows it, with a sign before it. -/
def encode : HunkLine Js.Text → Js.Text
  | context line => 0x20 :: line
  | delete line => 0x2D :: line
  | insert line => 0x2B :: line

end HunkLine

section

variable {α : Type*}

def oldLines (lines : List (HunkLine α)) : List α := lines.filterMap HunkLine.old?

def newLines (lines : List (HunkLine α)) : List α := lines.filterMap HunkLine.new?

/-- At the position, the old lines give way to the new ones. -/
def hunkEdit (position : ℕ) (lines : List (HunkLine α)) : Edit α :=
  ⟨position, (oldLines lines).length, newLines lines⟩

end
