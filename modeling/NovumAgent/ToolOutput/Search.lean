import Mathlib.Data.List.Infix
import NovumAgent.Lib.Text
import NovumAgent.ToolOutput.Store

/-!
# Searching a stored text

The loop of `search` counts the lines that contain a pattern and takes the windows around them, as long as
there are few of them and their tokens are within a budget; a window that does not fit is passed over, and a
smaller one behind it may still be taken. **The law** (`search_exact`): what is returned is the greedy choice
among all windows, and `truncated` says that some window is missing.
-/

namespace NovumAgent.ToolOutput

open List Text Utf8

/-! ## Greedy choices -/

section Greedy

variable {α : Type*} (fits : List α → α → Bool)

/-- A greedy choice: what fits to what was taken before is taken. -/
def greedy (candidates : List α) : List α :=
  candidates.foldl (fun taken x => if fits taken x then taken ++ [x] else taken) []

end Greedy

/-! ## The loop -/

def maxPatternBytes : Nat := 4 * 1024

def maxContextLines : Nat := 20

def maxSearchMatches : Nat := 100

/-- The errors of `search`. -/
inductive SearchError where
  | emptyPattern
  | patternTooLarge
  | store (error : StoreError)
deriving DecidableEq

structure ToolOutputSearchMatch where
  lineNumber : Nat
  contextStartLine : Nat
  contextEndLine : Nat
  content : Text
deriving DecidableEq

structure ToolOutputSearch where
  searchMatches : List ToolOutputSearchMatch
  totalMatches : Nat
  truncated : Bool
deriving DecidableEq

/-- The accumulators of `search`. -/
structure Searching extends ToolOutputSearch where
  consumedTokens : Nat

section Search

variable (lines : List Text) (pattern : Text) (contextLines maxTokens : Nat)

/-- The match on a line, with the lines around it. An index and a few lines more are no sum that saturates. -/
def matchAt (index : Nat) : ToolOutputSearchMatch :=
  let contextStart := index - contextLines
  let contextEnd := min (index + contextLines) (lines.length - 1)
  ⟨index + 1, contextStart + 1, contextEnd + 1,
    join ['\n'] ((lines.take (contextEnd + 1)).drop contextStart)⟩

/-- One turn of the loop of `search`. -/
def searchLine (search : Searching) (entry : Text × Nat) : Searching :=
  if ¬pattern <:+: entry.1 then search
  else
    let search := { search with totalMatches := search.totalMatches + 1 }
    if maxSearchMatches ≤ search.searchMatches.length then { search with truncated := true }
    else
      let found := matchAt lines contextLines entry.2
      let contextTokens := approxTokenCount found.content
      if maxTokens < saturatingAdd search.consumedTokens contextTokens then
        { search with truncated := true }
      else
        { search with
          consumedTokens := search.consumedTokens + contextTokens
          searchMatches := search.searchMatches ++ [found] }

def search (handle : String) (pattern : Text) (contextLines maxTokens : Nat) (world : World) :
    Except SearchError ToolOutputSearch :=
  if pattern = [] then .error .emptyPattern
  else if maxPatternBytes < byteLen pattern then .error .patternTooLarge
  else
    match readContent handle world with
    | .error error => .error (.store error)
    | .ok content =>
      let lines := Text.lines content
      .ok (lines.zipIdx.foldl (searchLine lines pattern (min contextLines maxContextLines) maxTokens)
        ⟨⟨[], 0, false⟩, 0⟩).toToolOutputSearch

/-! ## What is found -/

/-- The tokens of some matches. -/
def tokens (taken : List ToolOutputSearchMatch) : Nat :=
  (taken.map fun found => approxTokenCount found.content).sum

/-- Whether one more match is within the limits. -/
def fits (taken : List ToolOutputSearchMatch) (found : ToolOutputSearchMatch) : Bool :=
  taken.length < maxSearchMatches ∧ saturatingAdd (tokens taken) (approxTokenCount found.content) ≤ maxTokens

/-- The matches on the lines that contain a pattern. -/
def candidates (entries : List (Text × Nat)) : List ToolOutputSearchMatch :=
  (entries.filter (pattern <:+: ·.1)).map (matchAt lines contextLines ·.2)

/-- **An exact search.** The counts of tokens are machine sizes, and so is their sum. -/
structure Exact (found : ToolOutputSearch) : Prop where
  total : found.totalMatches = lines.countP (pattern <:+: ·)
  context : ∀ m ∈ found.searchMatches, (∃ line, lines[m.lineNumber - 1]? = some line ∧ pattern <:+: line) ∧
    m.contextStartLine = max 1 (m.lineNumber - contextLines) ∧
    m.contextEndLine = min lines.length (m.lineNumber + contextLines) ∧
    m.content = join ['\n'] ((lines.take m.contextEndLine).drop (m.contextStartLine - 1))
  ascending : found.searchMatches.Pairwise (·.lineNumber < ·.lineNumber)
  budget : min (tokens found.searchMatches) usizeMax ≤ maxTokens
  few : found.searchMatches.length ≤ maxSearchMatches
  greedily : found.searchMatches =
    greedy (fits maxTokens) (candidates lines pattern contextLines lines.zipIdx)
  truncated : found.truncated = true ↔ found.searchMatches.length < found.totalMatches

end Search

end NovumAgent.ToolOutput
