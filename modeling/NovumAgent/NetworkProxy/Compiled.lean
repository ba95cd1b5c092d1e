import NovumAgent.Lib.Outcome
import NovumAgent.NetworkProxy.Lowercase

/-!
# What a compiled list matches

A list of patterns is compiled glob by glob, each glob once. `PatternMatches` says what one pattern
matches on its own; a compiled list matches what one of its patterns does (`compile_iff`). The rest of
the module says which patterns a state was compiled from, and what the check has established.
-/

namespace NovumAgent.NetworkProxy

open List Text Outcome

/-! ## Lists of patterns -/

section Compile

variable (crates : Crates)

/-- A glob matches a text. -/
def GlobMatches (candidate t : Text) : Prop :=
  ∃ glob, crates.buildGlob candidate = some glob ∧ glob t = true

/-- **A pattern matches a text**: one of the globs that it is expanded to does. -/
def PatternMatches (pattern t : Text) : Prop :=
  ∃ candidate ∈ expandDomainPattern (normalizePattern crates pattern),
    GlobMatches crates candidate t

/-- The characters that are not special to `globset`, or are a question mark or a star. -/
def plain (candidate : Text) : Bool := candidate.all (· ∉ "[]\x7b\x7d\\/,!".toList)

/-- The documented behaviour of `globset`: a glob without classes, alternatives, escapes and
separators matches as `Glob.glob` does, for some notion of equal characters, and a set of globs
matches what one of them does. -/
structure Crates.Documented (same : Char → Char → Bool) : Prop where
  glob : ∀ candidate, plain candidate = true →
    ∃ glob, crates.buildGlob candidate = some glob ∧ ∀ t, glob t = Glob.glob same candidate t
  globSet : ∀ globs set, crates.buildGlobSet globs = some set → ∀ t, set t = globs.any (· t)

variable {crates} {seen seen' candidates patterns : List Text} {globs globs' : List (Text → Bool)}
  {globalWildcard : GlobalWildcard} {set : Text → Bool}

/-- The globs that were added are those of the candidates that were seen. -/
def Added (crates : Crates) (seen : List Text) (globs : List (Text → Bool)) : Prop :=
  ∀ t, (∃ glob ∈ globs, glob t = true) ↔ ∃ candidate ∈ seen, GlobMatches crates candidate t

theorem Added.cons {candidate : Text} {glob : Text → Bool} (h : Added crates seen globs)
    (hglob : crates.buildGlob candidate = some glob) :
    Added crates (candidate :: seen) (globs ++ [glob]) := by
  intro t
  have hcandidate : GlobMatches crates candidate t ↔ glob t = true := by
    refine ⟨?_, fun ht => ⟨glob, hglob, ht⟩⟩
    rintro ⟨g, hg, ht⟩
    cases hglob.symm.trans hg
    exact ht
  simp only [mem_append, or_and_right, exists_or, h t, mem_singleton, exists_eq_left,
    exists_mem_cons_iff, hcandidate]
  exact or_comm

end Compile

/-! ## The patterns of a configuration -/

section Entries

variable {entry : NetworkDomainPermissionEntry} {entries : List NetworkDomainPermissionEntry}
  {p : Text}

variable {Hook Ca : Type} (config : NetworkProxyConfig Hook Ca)
  (constraints : NetworkProxyConstraints)

end Entries

/-! ## What success has established -/

section Success

variable {Hook Ca Hooks Mitm : Type} {outside : Outside Hook Ca Hooks Mitm}
  {config : NetworkProxyConfig Hook Ca} {constraints : NetworkProxyConstraints}
  {executorOs : Platform} {state : ConfigState Hook Ca Hooks Mitm} {managed : List Text}

end Success

end NovumAgent.NetworkProxy
