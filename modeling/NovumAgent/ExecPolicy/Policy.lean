import Mathlib.Order.Lattice
import Mathlib.Order.Nat
import NovumAgent.Lib.Table
import NovumAgent.Permissions.Native

/-!
# Rules for commands

A policy has rules, found under the first word of a command, and for some program names the paths under which
they may be found. A command is matched in two tiers: by the rules for its first word, and, if none of
them matches, by the rules for the name of the program that its first word is the path of. A match in the
first tier hides the second.

`mergeOverlay` adds the rules of an administrator to those of a user. Within a tier more rules only make the
decision stricter (`rulesFor_mergeOverlay`); across the tiers they do not, and `overlay_respected_iff`
says exactly when the rules of the administrator count.
-/

namespace NovumAgent.ExecPolicy

open List Permissions Utf8

inductive Decision where
  | allow
  | prompt
  | forbidden
deriving DecidableEq

namespace Decision

/-- The place of a decision in the order. -/
def rank : Decision → Nat
  | allow => 0
  | prompt => 1
  | forbidden => 2

theorem rank_injective : Function.Injective rank := by
  intro a b h
  cases a <;> cases b <;> first | rfl | cases h

instance : LinearOrder Decision := LinearOrder.lift' rank rank_injective

theorem allow_le (decision : Decision) : allow ≤ decision := Nat.zero_le _

end Decision

inductive PatternToken where
  | single (expected : Text)
  | alts (alternatives : List Text)

def PatternToken.matches : PatternToken → Text → Bool
  | single expected, token => expected = token
  | alts alternatives, token => alternatives.any (· = token)

structure PrefixPattern where
  first : Text
  rest : List PatternToken

def PrefixPattern.matchesPrefix (pattern : PrefixPattern) (cmd : List Text) : Option (List Text) :=
  match cmd with
  | [] => none
  | program :: arguments =>
    if arguments.length < pattern.rest.length ∨ program ≠ pattern.first then none
    else if (pattern.rest.zip arguments).all fun (token, word) => token.matches word then
      some (cmd.take (pattern.rest.length + 1))
    else none

inductive RuleMatch where
  | prefixRuleMatch (matchedPrefix : List Text) (decision : Decision)
      (resolvedProgram : Option AbsolutePathBuf) (justification : Option Text)
  | heuristicsRuleMatch (command : List Text) (decision : Decision)

namespace RuleMatch

def decision : RuleMatch → Decision
  | prefixRuleMatch _ decision _ _ => decision
  | heuristicsRuleMatch _ decision => decision

def withResolvedProgram (resolvedProgram : AbsolutePathBuf) : RuleMatch → RuleMatch
  | prefixRuleMatch matchedPrefix decision _ justification =>
    prefixRuleMatch matchedPrefix decision (some resolvedProgram) justification
  | other => other

end RuleMatch

/-- `PrefixRule`, the one kind of rule. -/
structure PrefixRule where
  pattern : PrefixPattern
  decision : Decision
  justification : Option Text

def PrefixRule.matches (rule : PrefixRule) (cmd : List Text) : Option RuleMatch :=
  (rule.pattern.matchesPrefix cmd).map fun matchedPrefix =>
    .prefixRuleMatch matchedPrefix rule.decision none rule.justification

inductive NetworkRuleProtocol where
  | http
  | https
  | socks5Tcp
  | socks5Udp

structure NetworkRule where
  host : Text
  protocol : NetworkRuleProtocol
  decision : Decision
  justification : Option Text

structure Policy where
  rulesByProgram : Table Text (List PrefixRule)
  networkRules : List NetworkRule
  hostExecutablesByName : Table Text (List AbsolutePathBuf)

structure MatchOptions where
  resolveHostExecutables : Bool

/-- Where the process runs: its home directory and its current directory, and whether the build is for
Windows. -/
structure Surroundings where
  home : Option (List Component)
  currentDir : Option AbsolutePathBuf
  windows : Bool

/-- `AbsolutePathBuf::try_from`, of a text. -/
def Surroundings.tryFrom (surroundings : Surroundings) (path : Text) : Option AbsolutePathBuf :=
  let expands := surroundings.home.isSome ∧ (path = ['~'] ∨ path.take 2 = ['~', '/'])
  match surroundings.currentDir with
  | some currentDir => some (resolvePathAgainstBase surroundings.home path currentDir)
  | none =>
    if path.head? = some '/' ∨ expands then
      some (resolvePathAgainstBase surroundings.home path ⟨[]⟩)
    else none

def windowsExecutableSuffixes : List Text := [".exe", ".cmd", ".bat", ".com"].map String.toList

def executableLookupKey (windows : Bool) (raw : Text) : Text :=
  if windows then
    let raw := raw.map Char.toLower
    match windowsExecutableSuffixes.find? (·.isSuffixOf raw) with
    | some suffix => raw.take (raw.length - suffix.length)
    | none => raw
  else raw

/-- The key of the last name of the path, if it is text. -/
def executablePathLookupKey (windows : Bool) (path : AbsolutePathBuf) : Option Text :=
  match path.names.getLast? with
  | none => none
  | some name =>
    let text := fromUtf8Lossy name.1
    if encode text = name.1 then some (executableLookupKey windows text) else none

structure Evaluation where
  decision : Decision
  matchedRules : List RuleMatch

/-- The strictest of the decisions. -/
def strictest : List RuleMatch → Option Decision
  | [] => none
  | first :: others => some (others.foldl (fun decision other => max decision other.decision) first.decision)

/-- `Evaluation::from_matches`: it expects that there are some. -/
def Evaluation.fromMatches (matchedRules : List RuleMatch) : Option Evaluation :=
  (strictest matchedRules).map fun decision => ⟨decision, matchedRules⟩

namespace Policy

def empty : Policy := ⟨∅, [], ∅⟩

/-- The rules for a program. -/
def rulesFor (policy : Policy) (program : Text) : List PrefixRule :=
  (policy.rulesByProgram.lookup program).getD []

/-- `MultiMap::insert`. -/
def insertRule (rules : Table Text (List PrefixRule)) (program : Text) (rule : PrefixRule) :
    Table Text (List PrefixRule) :=
  rules.insert program ((rules.lookup program).getD [] ++ [rule])

/-- `Policy::add_prefix_rule`, or the text of the error. -/
def addPrefixRule (policy : Policy) (words : List Text) (decision : Decision) : Except Text Policy :=
  match words with
  | [] => throw "prefix cannot be empty".toList
  | first :: rest =>
    let rule : PrefixRule := ⟨⟨first, rest.map .single⟩, decision, none⟩
    pure { policy with rulesByProgram := insertRule policy.rulesByProgram first rule }

def mergeOverlay (policy overlay : Policy) : Policy where
  rulesByProgram := overlay.rulesByProgram.entries.foldl
    (fun combined entry => entry.2.foldl (fun combined rule => insertRule combined entry.1 rule) combined)
    policy.rulesByProgram
  networkRules := policy.networkRules ++ overlay.networkRules
  hostExecutablesByName := overlay.hostExecutablesByName ∪ policy.hostExecutablesByName

/-- `match_exact_rules`. Without a first word there is no match. -/
def matchExactRules (policy : Policy) (cmd : List Text) : List RuleMatch :=
  match cmd.head? with
  | none => []
  | some first => (policy.rulesFor first).filterMap (·.matches cmd)

/-- May a program be found at a path? -/
def permits (policy : Policy) (basename : Text) (program : AbsolutePathBuf) : Bool :=
  match policy.hostExecutablesByName.lookup basename with
  | some paths => paths.any (· = program)
  | none => true

/-- The program that a command names, and its name. -/
def resolveProgram (surroundings : Surroundings) (cmd : List Text) : Option (AbsolutePathBuf × Text) := do
  let first ← cmd.head?
  let program ← surroundings.tryFrom first
  let basename ← executablePathLookupKey surroundings.windows program
  pure (program, basename)

def matchHostExecutableRules (policy : Policy) (surroundings : Surroundings) (cmd : List Text) :
    List RuleMatch :=
  match resolveProgram surroundings cmd with
  | none => []
  | some (program, basename) =>
    if policy.permits basename program then
      ((policy.rulesFor basename).filterMap (·.matches (basename :: cmd.tail))).map
        (·.withResolvedProgram program)
    else []

/-- The rules that match: those of the first tier, or else those of the second. -/
def policyMatches (policy : Policy) (surroundings : Surroundings) (cmd : List Text)
    (options : MatchOptions) : List RuleMatch :=
  if policy.matchExactRules cmd ≠ [] then policy.matchExactRules cmd
  else if options.resolveHostExecutables then policy.matchHostExecutableRules surroundings cmd
  else []

def matchesForCommandWithOptions (policy : Policy) (surroundings : Surroundings) (cmd : List Text)
    (heuristicsFallback : Option (List Text → Decision)) (options : MatchOptions) : List RuleMatch :=
  let matchedRules := policy.policyMatches surroundings cmd options
  match matchedRules, heuristicsFallback with
  | [], some fallback => [.heuristicsRuleMatch cmd (fallback cmd)]
  | _, _ => matchedRules

def checkWithOptions (policy : Policy) (surroundings : Surroundings) (cmd : List Text)
    (heuristicsFallback : List Text → Decision) (options : MatchOptions) : Option Evaluation :=
  Evaluation.fromMatches (policy.matchesForCommandWithOptions surroundings cmd (some heuristicsFallback) options)

def checkMultipleWithOptions (policy : Policy) (surroundings : Surroundings) (commands : List (List Text))
    (heuristicsFallback : List Text → Decision) (options : MatchOptions) : Option Evaluation :=
  Evaluation.fromMatches (commands.flatMap fun command =>
    policy.matchesForCommandWithOptions surroundings command (some heuristicsFallback) options)

end Policy

/-! ## The strictest decision -/

section

variable {found : List RuleMatch} {decision bound : Decision} {evaluation : Evaluation}

theorem foldl_max_le_iff (others : List RuleMatch) (decision bound : Decision) :
    others.foldl (fun decision other => max decision other.decision) decision ≤ bound ↔
      decision ≤ bound ∧ ∀ other ∈ others, other.decision ≤ bound := by
  induction others generalizing decision with
  | nil => simp
  | cons other others ih =>
    rw [foldl_cons, ih, max_le_iff, forall_mem_cons, and_assoc]

theorem le_foldl_max_iff (others : List RuleMatch) (decision bound : Decision) :
    bound ≤ others.foldl (fun decision other => max decision other.decision) decision ↔
      bound ≤ decision ∨ ∃ other ∈ others, bound ≤ other.decision := by
  induction others generalizing decision with
  | nil => simp
  | cons other others ih =>
    rw [foldl_cons, ih, le_max_iff, exists_mem_cons_iff, or_assoc]

theorem fromMatches_isSome (h : found ≠ []) : ∃ evaluation, Evaluation.fromMatches found = some evaluation := by
  cases found with
  | nil => exact absurd rfl h
  | cons first others => exact ⟨_, rfl⟩

section

variable (h : Evaluation.fromMatches found = some evaluation)
include h

theorem fromMatches_matchedRules : evaluation.matchedRules = found ∧ found ≠ [] := by
  cases found with
  | nil => cases h
  | cons first others =>
    cases h
    exact ⟨rfl, nofun⟩

theorem decision_le_iff :
    evaluation.decision ≤ bound ↔ ∀ other ∈ found, other.decision ≤ bound := by
  cases found with
  | nil => cases h
  | cons first others =>
    cases h
    show others.foldl _ _ ≤ bound ↔ _
    rw [foldl_max_le_iff, forall_mem_cons]

theorem le_decision_iff :
    bound ≤ evaluation.decision ↔ ∃ other ∈ found, bound ≤ other.decision := by
  cases found with
  | nil => cases h
  | cons first others =>
    cases h
    show bound ≤ others.foldl _ _ ↔ _
    rw [le_foldl_max_iff, exists_mem_cons_iff]

end

end

/-! ## Merged rules -/

namespace Policy

section

variable {policy overlay : Policy} {surroundings : Surroundings} {cmd : List Text}

theorem lookup_insertRule (rules : Table Text (List PrefixRule)) (program other : Text)
    (rule : PrefixRule) :
    ((insertRule rules program rule).lookup other).getD [] =
      (rules.lookup other).getD [] ++ if other = program then [rule] else [] := by
  unfold insertRule
  rw [Table.lookup_insert_eq]
  split
  next h => rw [h, Option.getD_some]
  next => rw [append_nil]

theorem lookup_foldl_insertRule (others : List PrefixRule) (rules : Table Text (List PrefixRule))
    (program other : Text) :
    ((others.foldl (fun combined rule => insertRule combined program rule) rules).lookup other).getD [] =
      (rules.lookup other).getD [] ++ if other = program then others else [] := by
  induction others generalizing rules with
  | nil => simp
  | cons rule others ih =>
    rw [foldl_cons, ih, lookup_insertRule, append_assoc]
    split <;> rfl

variable (policy overlay : Policy)

theorem rulesFor_mergeOverlay (program : Text) : (policy.mergeOverlay overlay).rulesFor program =
      policy.rulesFor program ++ overlay.rulesFor program := by
  have hfold : ∀ (entries : List (Sigma fun _ : Text => List PrefixRule)), entries.NodupKeys →
      ∀ rules : Table Text (List PrefixRule),
      ((entries.foldl (fun combined entry =>
        entry.2.foldl (fun combined rule => insertRule combined entry.1 rule) combined)
          rules).lookup program).getD [] =
        (rules.lookup program).getD [] ++ (entries.dlookup program).getD [] := by
    intro entries
    induction entries with
    | nil =>
      intro _ rules
      exact (append_nil _).symm
    | cons entry entries ih =>
      intro hnodup rules
      obtain ⟨hfresh, hnodup⟩ := nodupKeys_cons.mp hnodup
      rw [foldl_cons, ih hnodup, lookup_foldl_insertRule, append_assoc]
      by_cases hsame : program = entry.1
      · subst hsame
        rw [if_pos rfl, dlookup_eq_none.mpr hfresh, dlookup_cons_eq]
        exact congrArg _ (append_nil _)
      · rw [if_neg hsame, dlookup_cons_ne _ _ hsame]
        rfl
  exact hfold overlay.rulesByProgram.entries overlay.rulesByProgram.nodupKeys policy.rulesByProgram

theorem matchExactRules_mergeOverlay (cmd : List Text) :
    (policy.mergeOverlay overlay).matchExactRules cmd =
      policy.matchExactRules cmd ++ overlay.matchExactRules cmd := by
  unfold matchExactRules
  split
  next => rfl
  next first _ => rw [rulesFor_mergeOverlay, filterMap_append]

theorem permits_mergeOverlay (basename : Text) (program : AbsolutePathBuf) :
    (policy.mergeOverlay overlay).permits basename program =
      if (overlay.hostExecutablesByName.lookup basename).isSome then overlay.permits basename program
      else policy.permits basename program := by
  unfold permits mergeOverlay
  dsimp only
  cases hlookup : overlay.hostExecutablesByName.lookup basename with
  | none =>
    rw [AList.lookup_union_right (AList.lookup_eq_none.mp hlookup)]
    rfl
  | some paths =>
    have hmem : basename ∈ overlay.hostExecutablesByName :=
      AList.lookup_isSome.mp (by rw [hlookup]; rfl)
    rw [AList.lookup_union_left hmem, hlookup]
    rfl

end

/-! ## Overlays -/

/-- **When the rules of an overlay count.** The overlay has a rule for the first word of the command itself; or
what it decides by the name of the program is not hidden: the rules of the base policy for the first word are
as strict, or there are none, and then the program may be found at its path, or what decides in place
of the rules is as strict. -/
def OverlayCounts (policy overlay : Policy) (surroundings : Surroundings) (cmd : List Text)
    (heuristicsFallback : List Text → Decision) : Prop :=
  overlay.matchExactRules cmd ≠ [] ∨ ∀ found ∈ overlay.matchHostExecutableRules surroundings cmd,
      (∃ other ∈ policy.matchExactRules cmd, found.decision ≤ other.decision) ∨
        (policy.matchExactRules cmd = [] ∧
          ((∀ program basename, resolveProgram surroundings cmd = some (program, basename) →
            (overlay.hostExecutablesByName.lookup basename).isSome = true ∨
              policy.permits basename program = true) ∨
          found.decision ≤ heuristicsFallback cmd))

section

variable {policy overlay : Policy} {surroundings : Surroundings} {cmd : List Text}
  {heuristicsFallback : List Text → Decision} {options : MatchOptions} {evaluation : Evaluation}

theorem matchesForCommandWithOptions_none :
    policy.matchesForCommandWithOptions surroundings cmd none options =
      policy.policyMatches surroundings cmd options := by
  unfold matchesForCommandWithOptions
  dsimp only
  split
  next hsome => cases hsome
  next => rfl

theorem matchesForCommandWithOptions_some :
    policy.matchesForCommandWithOptions surroundings cmd (some heuristicsFallback) options =
      if policy.policyMatches surroundings cmd options = [] then
        [.heuristicsRuleMatch cmd (heuristicsFallback cmd)]
      else policy.policyMatches surroundings cmd options := by
  unfold matchesForCommandWithOptions
  cases policy.policyMatches surroundings cmd options <;> rfl

theorem checkWithOptions_isSome (policy : Policy) (surroundings : Surroundings) (cmd : List Text)
    (heuristicsFallback : List Text → Decision) (options : MatchOptions) :
    ∃ evaluation,
      policy.checkWithOptions surroundings cmd heuristicsFallback options = some evaluation := by
  refine fromMatches_isSome ?_
  rw [matchesForCommandWithOptions_some]
  split
  next => nofun
  next h => exact h

theorem le_check_iff {bound : Decision}
    (h : policy.checkWithOptions surroundings cmd heuristicsFallback options = some evaluation) :
    bound ≤ evaluation.decision ↔
      (∃ found ∈ policy.policyMatches surroundings cmd options, bound ≤ found.decision) ∨
        (policy.policyMatches surroundings cmd options = [] ∧ bound ≤ heuristicsFallback cmd) := by
  rw [le_decision_iff h, matchesForCommandWithOptions_some]
  split
  next hnone =>
    rw [hnone]
    simp [RuleMatch.decision]
  next hsome => simp [hsome]

theorem matchHostExecutableRules_eq {program : AbsolutePathBuf} {basename : Text}
    (h : resolveProgram surroundings cmd = some (program, basename)) :
    policy.matchHostExecutableRules surroundings cmd =
      if policy.permits basename program then
        ((policy.rulesFor basename).filterMap (·.matches (basename :: cmd.tail))).map
          (·.withResolvedProgram program)
      else [] := by
  unfold matchHostExecutableRules
  rw [h]

theorem exists_of_matchHostExecutableRules
    (h : policy.matchHostExecutableRules surroundings cmd ≠ []) :
    ∃ program basename, resolveProgram surroundings cmd = some (program, basename) ∧
      policy.permits basename program = true := by
  unfold matchHostExecutableRules at h
  split at h
  next => exact absurd rfl h
  next program basename hresolve =>
    split at h
    next hpermits => exact ⟨program, basename, hresolve, hpermits⟩
    next => exact absurd rfl h

theorem matchHostExecutableRules_mergeOverlay {program : AbsolutePathBuf} {basename : Text}
    (hresolve : resolveProgram surroundings cmd = some (program, basename))
    (hpermits : overlay.permits basename program = true)
    (hmerged : (policy.mergeOverlay overlay).permits basename program = true) :
    overlay.matchHostExecutableRules surroundings cmd ⊆
      (policy.mergeOverlay overlay).matchHostExecutableRules surroundings cmd := by
  rw [matchHostExecutableRules_eq hresolve, matchHostExecutableRules_eq hresolve, if_pos hpermits,
    if_pos hmerged, rulesFor_mergeOverlay, filterMap_append, map_append]
  exact subset_append_right _ _

theorem policyMatches_exact (h : policy.matchExactRules cmd ≠ []) :
    policy.policyMatches surroundings cmd options = policy.matchExactRules cmd := if_pos h

theorem policyMatches_host (h : policy.matchExactRules cmd = []) :
    policy.policyMatches surroundings cmd ⟨true⟩ = policy.matchHostExecutableRules surroundings cmd := by
  unfold policyMatches
  rw [h, if_neg (fun hne => hne rfl), if_pos rfl]

theorem merged_decides_iff (hown : overlay.matchExactRules cmd = [])
    (hhost : overlay.matchHostExecutableRules surroundings cmd ≠ []) {found : RuleMatch}
    (hfound : found ∈ overlay.matchHostExecutableRules surroundings cmd)
    (h : (policy.mergeOverlay overlay).checkWithOptions surroundings cmd heuristicsFallback ⟨true⟩ =
      some evaluation) :
    found.decision ≤ evaluation.decision ↔
      (∃ other ∈ policy.matchExactRules cmd, found.decision ≤ other.decision) ∨
        (policy.matchExactRules cmd = [] ∧
          ((∀ program basename, resolveProgram surroundings cmd = some (program, basename) →
            (overlay.hostExecutablesByName.lookup basename).isSome = true ∨
              policy.permits basename program = true) ∨
          found.decision ≤ heuristicsFallback cmd)) := by
  have hexact := matchExactRules_mergeOverlay policy overlay cmd
  rw [hown, append_nil] at hexact
  rw [le_check_iff h]
  by_cases hbase : policy.matchExactRules cmd = []
  · -- nothing hides the second tier, which the merged policy may still refuse
    rw [policyMatches_host (hexact.trans hbase), hbase]
    obtain ⟨program, basename, hresolve, hpermits⟩ := exists_of_matchHostExecutableRules hhost
    have hmerged := permits_mergeOverlay policy overlay basename program
    rw [hpermits] at hmerged
    have hfinds : (∀ program' basename', resolveProgram surroundings cmd = some (program', basename') →
        (overlay.hostExecutablesByName.lookup basename').isSome = true ∨
          policy.permits basename' program' = true) ↔
        (policy.mergeOverlay overlay).permits basename program = true := by
      rw [hmerged]
      constructor
      · intro hall
        obtain hlists | hbasePermits := hall program basename hresolve
        · rw [if_pos hlists]
        · rw [hbasePermits, ite_self]
      · intro hpermit program' basename' hresolve'
        rw [hresolve] at hresolve'
        cases hresolve'
        by_cases hlists : (overlay.hostExecutablesByName.lookup basename).isSome = true
        · exact .inl hlists
        · rw [if_neg hlists] at hpermit
          exact .inr hpermit
    rw [hfinds]
    by_cases hpermit : (policy.mergeOverlay overlay).permits basename program = true
    · refine iff_of_true (.inl ⟨found, ?_, le_refl _⟩) (.inr ⟨rfl, .inl hpermit⟩)
      exact matchHostExecutableRules_mergeOverlay hresolve hpermits hpermit hfound
    · rw [matchHostExecutableRules_eq hresolve, if_neg hpermit]
      simp [hpermit]
  · have hne : (policy.mergeOverlay overlay).matchExactRules cmd ≠ [] := hexact ▸ hbase
    rw [policyMatches_exact hne, hexact]
    simp [hbase]

/-- **The rules of an administrator**: what they decide is a lower bound of what the merged policy decides, if
and only if they count. -/
theorem overlay_respected_iff (policy overlay : Policy) (surroundings : Surroundings) (cmd : List Text)
    (heuristicsFallback : List Text → Decision)
    (hmatch : overlay.matchesForCommandWithOptions surroundings cmd none ⟨true⟩ ≠ []) :
    (∃ evaluation, (policy.mergeOverlay overlay).checkWithOptions surroundings cmd heuristicsFallback
        ⟨true⟩ = some evaluation ∧
      ∀ found ∈ overlay.matchesForCommandWithOptions surroundings cmd none ⟨true⟩,
        found.decision ≤ evaluation.decision) ↔
      OverlayCounts policy overlay surroundings cmd heuristicsFallback := by
  obtain ⟨evaluation, hevaluation⟩ := checkWithOptions_isSome (policy.mergeOverlay overlay) surroundings
    cmd heuristicsFallback ⟨true⟩
  simp only [hevaluation, Option.some.injEq, exists_eq_left']
  rw [matchesForCommandWithOptions_none] at hmatch ⊢
  by_cases hown : overlay.matchExactRules cmd = []
  · rw [policyMatches_host hown] at hmatch ⊢
    refine Iff.trans ?_ (or_iff_right fun hne => hne hown).symm
    exact forall₂_congr fun found hfound => merged_decides_iff hown hmatch hfound hevaluation
  · refine iff_of_true (fun found hfound => (le_check_iff hevaluation).mpr (.inl ?_)) (.inl hown)
    rw [policyMatches_exact hown] at hfound
    have hexact := matchExactRules_mergeOverlay policy overlay cmd
    have hmem : found ∈ (policy.mergeOverlay overlay).matchExactRules cmd :=
      hexact ▸ mem_append_right _ hfound
    rw [policyMatches_exact (ne_nil_of_mem hmem)]
    exact ⟨found, hmem, le_refl _⟩

/-- A policy with one rule, for a program. -/
def ruling (program : Text) (decision : Decision) : Policy :=
  { empty with rulesByProgram := insertRule ∅ program ⟨⟨program, []⟩, decision, none⟩ }

/-- The policy of an administrator who forbids a program by its name. -/
def forbidsGit : Policy := ruling "git".toList .forbidden

/-- The policy of a user who allows a program at its path. -/
def allowsUsrBinGit : Policy := ruling "/usr/bin/git".toList .allow

/-- Where the user allows the name, the prohibition counts. -/
theorem overlay_respected_allowed :
    ∃ evaluation, ((ruling "git".toList .allow).mergeOverlay forbidsGit).checkWithOptions ⟨none, none, false⟩
        ["/usr/bin/git".toList, "push".toList] (fun _ => .allow) ⟨true⟩ = some evaluation ∧
      ∀ found ∈ forbidsGit.matchesForCommandWithOptions ⟨none, none, false⟩
          ["/usr/bin/git".toList, "push".toList] none ⟨true⟩,
        found.decision ≤ evaluation.decision := by
  refine (overlay_respected_iff (ruling "git".toList .allow) forbidsGit ⟨none, none, false⟩ ["/usr/bin/git".toList, "push".toList]
    (fun _ => .allow) (by decide +kernel)).mpr (.inr fun found _ => .inr ⟨by decide +kernel, .inl ?_⟩)
  exact fun _ _ _ => .inr rfl

/-- A rule that the user has for the path hides the prohibition of the name: the command is allowed. -/
theorem overlay_hidden : (∃ found ∈ forbidsGit.matchesForCommandWithOptions ⟨none, none, false⟩
        ["/usr/bin/git".toList, "push".toList] none ⟨true⟩, found.decision = .forbidden) ∧
      ((allowsUsrBinGit.mergeOverlay forbidsGit).checkWithOptions ⟨none, none, false⟩
        ["/usr/bin/git".toList, "push".toList] (fun _ => .prompt) ⟨true⟩).map (·.decision) =
          some .allow := by
  decide +kernel

end

end Policy

end NovumAgent.ExecPolicy
