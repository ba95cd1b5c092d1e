import NovumAgent.ExecPolicy.Policy

/-!
# Amendments

When a command needs approval, the model may have suggested a beginning of commands that could be allowed for
good. The suggestion is checked against the rules in force, with the overlay of the environment; when the
user accepts it, a rule is added to the base policy, unless the base policy allows the words already.

The check and the addition look at different policies, and that is where `amendment_takes_effect_iff` puts the
condition: the addition is skipped when the base policy allows the words by the name of their program, and
then nothing has changed.
-/

namespace NovumAgent.ExecPolicy

open List Policy

structure ExecPolicyAmendment where
  command : List Text
deriving DecidableEq

inductive AllowPrefixRules where
  | honor
  | ignoreForCyberModel
deriving DecidableEq

/-- `GranularApprovalConfig`, as far as commands look at it. -/
structure GranularApprovalConfig where
  sandboxApproval : Bool
  rules : Bool

inductive AskForApproval where
  | unlessTrusted
  | onRequest
  | granular (config : GranularApprovalConfig)
  | never

inductive ExecApprovalRequirement where
  | skip (bypassSandbox : Bool) (proposedExecpolicyAmendment : Option ExecPolicyAmendment)
  | needsApproval (reason : Option Text) (proposedExecpolicyAmendment : Option ExecPolicyAmendment)
  | forbidden (reason : Text)
deriving DecidableEq

inductive DangerousCommandMatch where
  | forcedRm
  | other

/-- What is asked of the outside: where the process runs, the `shlex` crate, and which commands are dangerous. -/
structure ExecHost where
  surroundings : Surroundings
  shlexTryJoin : List Text → Option Text
  dangerousCommandMatch : List Text → Option DangerousCommandMatch

/-- `ExecApprovalRequest`, with the decision that the heuristics render for a command that no rule matches. -/
structure ExecApprovalRequest where
  command : List Text
  approvalPolicy : AskForApproval
  environmentPolicy : Option Policy
  prefixRule : Option (List Text)
  allowPrefixRules : AllowPrefixRules
  execPolicyFallback : List Text → Decision

inductive ExecPolicyUpdateError where
  | appendRule (source : Text)
  | addRule (source : Text)

def bannedPrefixSuggestions : List (List String) :=
  [["/bin/bash"], ["/bin/bash", "-c"], ["/bin/bash", "-lc"], ["/bin/sh"], ["/bin/sh", "-c"],
    ["/bin/sh", "-lc"], ["/bin/zsh"], ["/bin/zsh", "-c"], ["/bin/zsh", "-lc"], ["Rscript"], ["bash"],
    ["bash", "-c"], ["bash", "-lc"], ["bun"], ["bun", "-e"], ["bun", "run"], ["cmd"], ["cmd", "/c"],
    ["cmd", "/k"], ["cmd.exe"], ["cmd.exe", "/c"], ["cmd.exe", "/k"], ["dash"], ["dash", "-c"],
    ["deno"], ["deno", "eval"], ["env"], ["fish"], ["fish", "-c"], ["git"], ["julia"], ["julia", "-e"],
    ["ksh"], ["ksh", "-c"], ["lua"], ["lua", "-e"], ["node"], ["node", "-e"], ["nodejs"],
    ["nodejs", "-e"], ["npm", "run"], ["osascript"], ["perl"], ["perl", "-e"], ["php"], ["php", "-r"],
    ["pnpm", "run"], ["powershell"], ["powershell", "-Command"], ["powershell", "-EncodedCommand"],
    ["powershell", "-File"], ["powershell", "-c"], ["powershell.exe"], ["powershell.exe", "-Command"],
    ["powershell.exe", "-EncodedCommand"], ["powershell.exe", "-File"], ["powershell.exe", "-c"],
    ["pwsh"], ["pwsh", "-Command"], ["pwsh", "-EncodedCommand"], ["pwsh", "-File"], ["pwsh", "-c"],
    ["pwsh", "-e"], ["pwsh", "-ec"], ["pwsh", "-f"], ["py"], ["py", "-3"], ["pypy"], ["pypy3"],
    ["python"], ["python", "-"], ["python", "-c"], ["python3"], ["python3", "-"], ["python3", "-c"],
    ["pythonw"], ["pyw"], ["rm"], ["ruby"], ["ruby", "-e"], ["sh"], ["sh", "-c"], ["sh", "-lc"],
    ["sudo"], ["yarn", "run"], ["zsh"], ["zsh", "-c"], ["zsh", "-lc"]]

/-- The options of every check. -/
def matchOptions : MatchOptions := ⟨true⟩

def isPolicyMatch : RuleMatch → Bool
  | .prefixRuleMatch _ _ _ _ => true
  | .heuristicsRuleMatch _ _ => false

/-- Is this a match of a rule with this decision? -/
def isPolicyMatchWith (decision : Decision) (ruleMatch : RuleMatch) : Bool :=
  isPolicyMatch ruleMatch && decide (ruleMatch.decision = decision)

/-- `current_for_prefix_rules`: without the rules that allow, if the model does not honor them. -/
def Policy.currentForPrefixRules (policy : Policy) : AllowPrefixRules → Policy
  | .honor => policy
  | .ignoreForCyberModel =>
    { policy with
      rulesByProgram := policy.rulesByProgram.entries.foldl
        (fun rules entry => entry.2.foldl (fun rules rule =>
          if rule.decision = .allow then rules else Policy.insertRule rules entry.1 rule) rules) ∅ }

def Policy.currentForEnvironment (policy : Policy) (environmentPolicy : Option Policy)
    (allowPrefixRules : AllowPrefixRules) : Policy :=
  match environmentPolicy with
  | some overlay => (policy.currentForPrefixRules allowPrefixRules).mergeOverlay overlay
  | none => policy.currentForPrefixRules allowPrefixRules

/-! ## Reasons -/

def ExecHost.renderShlexCommand (host : ExecHost) (arguments : List Text) : Text :=
  (host.shlexTryJoin arguments).getD (Text.join [' '] arguments)

/-- The most specific rule with a decision: the last of the longest. -/
def mostSpecific (decision : Decision) (matchedRules : List RuleMatch) :
    Option (List Text × Option Text) :=
  matchedRules.foldl (fun best ruleMatch =>
    match ruleMatch with
    | .prefixRuleMatch matchedPrefix decision' _ justification =>
      if decision' = decision ∧ best.all (fun (longest, _) => longest.length ≤ matchedPrefix.length) then
        some (matchedPrefix, justification)
      else best
    | .heuristicsRuleMatch _ _ => best) none

def ExecHost.derivePromptReason (host : ExecHost) (command : List Text) (evaluation : Evaluation) :
    Option Text :=
  (mostSpecific .prompt evaluation.matchedRules).map fun (_, justification) =>
    let quoted := ['`'] ++ host.renderShlexCommand command ++ ['`']
    match justification with
    | some justification => quoted ++ " requires approval: ".toList ++ justification
    | none => quoted ++ " requires approval by policy".toList

def dangerousCommandRejectionReason : DangerousCommandMatch → Text
  | .forcedRm => "rm -f style commands are not permitted. Use a safer approach".toList
  | .other => "blocked by policy".toList

def ExecHost.dangerousCommandMatchForHeuristics (host : ExecHost) (evaluation : Evaluation)
    (decision : Decision) : Option DangerousCommandMatch :=
  evaluation.matchedRules.findSome? fun ruleMatch =>
    match ruleMatch with
    | .heuristicsRuleMatch command matchedDecision =>
      if matchedDecision = decision then host.dangerousCommandMatch command else none
    | .prefixRuleMatch _ _ _ _ => none

def ExecHost.deriveForbiddenReason (host : ExecHost) (command : List Text) (evaluation : Evaluation) :
    Text :=
  let quoted := ['`'] ++ host.renderShlexCommand command ++ ['`']
  match mostSpecific .forbidden evaluation.matchedRules with
  | some (_, some justification) => quoted ++ " rejected: ".toList ++ justification
  | some (matchedPrefix, none) =>
    quoted ++ " rejected: policy forbids commands starting with `".toList ++
      host.renderShlexCommand matchedPrefix ++ ['`']
  | none =>
    match host.dangerousCommandMatchForHeuristics evaluation .forbidden with
    | some dangerous => quoted ++ " rejected: ".toList ++ dangerousCommandRejectionReason dangerous
    | none => quoted ++ " rejected: blocked by policy".toList

def deriveRejectedPromptReason (fallbackReason : Text) : Option DangerousCommandMatch → Text
  | some .forcedRm => dangerousCommandRejectionReason .forcedRm
  | some .other | none => fallbackReason

def promptIsRejectedByPolicy (approvalPolicy : AskForApproval) (promptIsRule : Bool) : Option Text :=
  match approvalPolicy with
  | .never => some "approval required by policy, but AskForApproval is set to Never".toList
  | .onRequest | .unlessTrusted => none
  | .granular config =>
    if promptIsRule then
      if config.rules then none
      else some "approval required by policy rule, but AskForApproval::Granular.rules is false".toList
    else if config.sandboxApproval then none
    else
      some "approval required by policy, but AskForApproval::Granular.sandbox_approval is false".toList

/-! ## Requirements -/

/-- The command of the first match of the heuristics with a decision. -/
def firstHeuristics (decision : Decision) (matchedRules : List RuleMatch) : Option ExecPolicyAmendment :=
  matchedRules.findSome? fun ruleMatch =>
    match ruleMatch with
    | .heuristicsRuleMatch command matchedDecision =>
      if matchedDecision = decision then some ⟨command⟩ else none
    | .prefixRuleMatch _ _ _ _ => none

def tryDeriveExecpolicyAmendmentForPromptRules (matchedRules : List RuleMatch) :
    Option ExecPolicyAmendment :=
  if matchedRules.any (isPolicyMatchWith .prompt) then none else firstHeuristics .prompt matchedRules

def tryDeriveExecpolicyAmendmentForAllowRules (matchedRules : List RuleMatch) :
    Option ExecPolicyAmendment :=
  if matchedRules.any isPolicyMatch then none else firstHeuristics .allow matchedRules

def prefixRuleWouldApproveAllCommands (surroundings : Surroundings) (execPolicy : Policy)
    (words : List Text) (commands : List (List Text)) (fallback : List Text → Decision) : Bool :=
  match execPolicy.addPrefixRule words .allow with
  | .error _ => false
  | .ok policyWithPrefixRule =>
    commands.all fun command =>
      (policyWithPrefixRule.checkWithOptions surroundings command fallback matchOptions).map
        (·.decision) = some .allow

def deriveRequestedExecpolicyAmendmentFromPrefixRule (surroundings : Surroundings)
    (prefixRule : Option (List Text)) (matchedRules : List RuleMatch) (execPolicy : Policy)
    (commands : List (List Text)) (fallback : List Text → Decision) : Option ExecPolicyAmendment :=
  match prefixRule with
  | none => none
  | some words =>
    if words = [] ∨ bannedPrefixSuggestions.any (fun banned => words = banned.map (·.toList)) ∨
        matchedRules.any isPolicyMatch then none
    else if prefixRuleWouldApproveAllCommands surroundings execPolicy words commands fallback then
      some ⟨words⟩
    else none

/-- The amendment that the request asks for, if the model honors rules. -/
def requestedAmendment (host : ExecHost) (policy : Policy) (request : ExecApprovalRequest)
    (commands : List (List Text)) (evaluation : Evaluation) : Option ExecPolicyAmendment :=
  if request.allowPrefixRules = .honor then
    deriveRequestedExecpolicyAmendmentFromPrefixRule host.surroundings request.prefixRule
      evaluation.matchedRules
      (policy.currentForEnvironment request.environmentPolicy request.allowPrefixRules) commands
      request.execPolicyFallback
  else none

/-- The evaluation of the commands of a request. -/
def evaluateRequest (host : ExecHost) (policy : Policy) (request : ExecApprovalRequest)
    (commands : List (List Text)) : Option Evaluation :=
  (policy.currentForEnvironment request.environmentPolicy
    request.allowPrefixRules).checkMultipleWithOptions host.surroundings commands
      request.execPolicyFallback matchOptions

/-- `create_exec_approval_requirement_for_parsed_commands`. The evaluation expects some command. -/
def createExecApprovalRequirementForParsedCommands (host : ExecHost) (policy : Policy)
    (request : ExecApprovalRequest) (commands : List (List Text)) : Option ExecApprovalRequirement :=
  let execPolicy := policy.currentForEnvironment request.environmentPolicy request.allowPrefixRules
  let autoAmendmentAllowed : Bool := request.allowPrefixRules = .honor
  (evaluateRequest host policy request commands).map fun evaluation =>
    match evaluation.decision with
    | .forbidden => .forbidden (host.deriveForbiddenReason request.command evaluation)
    | .prompt =>
      let promptIsRule := evaluation.matchedRules.any (isPolicyMatchWith .prompt)
      match promptIsRejectedByPolicy request.approvalPolicy promptIsRule with
      | some reason =>
        if promptIsRule then .forbidden reason
        else
          .forbidden (deriveRejectedPromptReason reason
            (host.dangerousCommandMatchForHeuristics evaluation .prompt))
      | none =>
        .needsApproval (host.derivePromptReason request.command evaluation)
          ((requestedAmendment host policy request commands evaluation).or
            (if autoAmendmentAllowed then
              tryDeriveExecpolicyAmendmentForPromptRules evaluation.matchedRules
            else none))
    | .allow =>
      .skip (commands.all fun command =>
          (execPolicy.matchesForCommandWithOptions host.surroundings command none matchOptions).any
            (isPolicyMatchWith .allow))
        (if autoAmendmentAllowed then
          tryDeriveExecpolicyAmendmentForAllowRules evaluation.matchedRules
        else none)

/-- `append_amendment_and_update`, with what writing the rule to the file of rules came to. -/
def appendAmendmentAndUpdate (surroundings : Surroundings) (policy : Policy)
    (amendment : ExecPolicyAmendment) (written : Except Text Unit) :
    Except ExecPolicyUpdateError Policy :=
  match written with
  | .error source => throw (.appendRule source)
  | .ok () =>
    let existingEvaluation := policy.checkMultipleWithOptions surroundings [amendment.command]
      (fun _ => .forbidden) matchOptions
    let alreadyAllowed := existingEvaluation.any fun evaluation =>
      decide (evaluation.decision = .allow) && evaluation.matchedRules.any (isPolicyMatchWith .allow)
    if alreadyAllowed then pure policy
    else (policy.addPrefixRule amendment.command .allow).mapError .addRule

/-! ## One more rule -/

/-- The rule of an amendment. -/
def allowRule (first : Text) (rest : List Text) : PrefixRule := ⟨⟨first, rest.map .single⟩, .allow, none⟩

/-- The policy with the rule of an amendment. -/
def Policy.amended (policy : Policy) (first : Text) (rest : List Text) : Policy :=
  { policy with
    rulesByProgram := Policy.insertRule policy.rulesByProgram first (allowRule first rest) }

/-- What a rule matches by the name of the program, where the policy finds it. -/
def Policy.matchByName (policy : Policy) (surroundings : Surroundings) (rule : PrefixRule)
    (cmd : List Text) : Option RuleMatch :=
  match Policy.resolveProgram surroundings cmd with
  | none => none
  | some (program, basename) =>
    if policy.permits basename program then
      (rule.matches (basename :: cmd.tail)).map (·.withResolvedProgram program)
    else none

/-- The decision on a command. -/
def Policy.decisionOn (policy : Policy) (surroundings : Surroundings) (cmd : List Text)
    (fallback : List Text → Decision) : Decision :=
  ((policy.checkWithOptions surroundings cmd fallback matchOptions).map (·.decision)).getD .allow

/-- A policy with one more rule, wherever it was added. -/
structure Extends (policy extended : Policy) (rule : PrefixRule) : Prop where
  rules : ∀ program other, other ∈ extended.rulesFor program ↔
    other ∈ policy.rulesFor program ∨ (program = rule.pattern.first ∧ other = rule)
  hosts : ∀ basename program, extended.permits basename program = policy.permits basename program

section

variable {policy extended other : Policy} {rule : PrefixRule} {surroundings : Surroundings}
  {cmd words : List Text} {first : Text} {rest : List Text} {fallback : List Text → Decision}

theorem matchesPrefix_cons {pattern : PrefixPattern} {program : Text} {arguments : List Text} :
    (pattern.matchesPrefix (program :: arguments)).isSome = true ↔
      program = pattern.first ∧ pattern.rest.length ≤ arguments.length ∧
        (pattern.rest.zip arguments).all (fun (token, word) => token.matches word) = true := by
  unfold PrefixPattern.matchesPrefix
  dsimp only
  split
  next h =>
    refine iff_of_false Bool.false_ne_true ?_
    rintro ⟨hfirst, hlength, -⟩
    obtain hshort | hother := h
    · omega
    · exact hother hfirst
  next h =>
    push Not at h
    split
    next hall => exact iff_of_true rfl ⟨h.2, h.1, hall⟩
    next hall => exact iff_of_false Bool.false_ne_true fun hmatch => hall hmatch.2.2

theorem matches_isSome : (rule.matches cmd).isSome = (rule.pattern.matchesPrefix cmd).isSome :=
  Option.isSome_map

variable {found : RuleMatch} {evaluation : Evaluation}

theorem first_of_matches (h : rule.matches cmd = some found) :
    cmd.head? = some rule.pattern.first := by
  have hsome : (rule.matches cmd).isSome = true := by
    rw [h]
    rfl
  rw [matches_isSome] at hsome
  cases cmd with
  | nil => cases hsome
  | cons program arguments => rw [(matchesPrefix_cons.mp hsome).1, head?_cons]

theorem zip_append_of_le (tokens : List PatternToken) (arguments more : List Text)
    (h : tokens.length ≤ arguments.length) : tokens.zip (arguments ++ more) = tokens.zip arguments := by
  induction tokens generalizing arguments with
  | nil => rfl
  | cons token tokens ih =>
    cases arguments with
    | nil => cases h
    | cons word arguments =>
      rw [cons_append, zip_cons_cons, zip_cons_cons, ih _ (Nat.le_of_succ_le_succ h)]

theorem matches_of_isPrefix (h : (rule.matches words).isSome = true) (hwords : words <+: cmd) :
    (rule.matches cmd).isSome = true := by
  obtain ⟨more, rfl⟩ := hwords
  rw [matches_isSome] at h ⊢
  cases words with
  | nil => cases h
  | cons program arguments =>
    obtain ⟨hfirst, hlength, hall⟩ := matchesPrefix_cons.mp h
    rw [cons_append]
    refine matchesPrefix_cons.mpr ⟨hfirst, ?_, ?_⟩
    · rw [length_append]
      omega
    · rw [zip_append_of_le _ _ _ hlength]
      exact hall

theorem singles_match_iff (arguments : List Text) :
    (rest.length ≤ arguments.length ∧ ((rest.map PatternToken.single).zip arguments).all
      (fun (token, word) => token.matches word) = true) ↔ rest <+: arguments := by
  induction rest generalizing arguments with
  | nil => simp
  | cons word rest ih =>
    cases arguments with
    | nil => simp
    | cons argument arguments =>
      rw [cons_prefix_cons, ← ih, map_cons, zip_cons_cons, all_cons,
        length_cons, length_cons, Nat.add_le_add_iff_right, Bool.and_eq_true]
      show _ ∧ decide (word = argument) = true ∧ _ ↔ _
      rw [decide_eq_true_iff]
      exact and_left_comm

theorem allowRule_matches :
    ((allowRule first rest).matches cmd).isSome = true ↔ first :: rest <+: cmd := by
  rw [matches_isSome]
  cases cmd with
  | nil => exact iff_of_false Bool.false_ne_true (by simp)
  | cons program arguments =>
    rw [matchesPrefix_cons, cons_prefix_cons, ← singles_match_iff arguments]
    show program = first ∧ (rest.map PatternToken.single).length ≤ _ ∧ _ ↔ _
    rw [length_map, eq_comm]
    rfl

theorem mem_matchExactRules : found ∈ policy.matchExactRules cmd ↔
      ∃ first rule, cmd.head? = some first ∧ rule ∈ policy.rulesFor first ∧ rule.matches cmd = some found := by
  unfold matchExactRules
  split
  next hnone => simp [hnone]
  next first hsome => simp [hsome]

theorem matchByName_eq_some :
    policy.matchByName surroundings rule cmd = some found ↔ ∃ program basename plain,
      resolveProgram surroundings cmd = some (program, basename) ∧
        policy.permits basename program = true ∧ rule.matches (basename :: cmd.tail) = some plain ∧
        plain.withResolvedProgram program = found := by
  unfold matchByName
  split
  next hnone => simp [hnone]
  next program basename hsome =>
    by_cases hpermits : policy.permits basename program = true
    · simp [hsome, hpermits]
    · simp [hsome, hpermits]

theorem mem_matchHostExecutableRules : found ∈ policy.matchHostExecutableRules surroundings cmd ↔
      ∃ program basename rule, resolveProgram surroundings cmd = some (program, basename) ∧
        rule ∈ policy.rulesFor basename ∧ policy.matchByName surroundings rule cmd = some found := by
  unfold matchHostExecutableRules matchByName
  split
  next hnone => simp [hnone]
  next program basename hsome =>
    by_cases hpermits : policy.permits basename program = true
    · simp only [hpermits, if_true, mem_map, mem_filterMap, hsome, Option.some.injEq,
        Option.map_eq_some_iff]
      constructor
      · rintro ⟨plain, ⟨rule, hmem, hmatch⟩, hresolved⟩
        exact ⟨program, basename, rule, rfl, hmem, plain, hmatch, hresolved⟩
      · rintro ⟨_, _, rule, heq, hmem, plain, hmatch, hresolved⟩
        cases heq
        exact ⟨plain, ⟨rule, hmem, hmatch⟩, hresolved⟩
    · simp [hsome, hpermits]

theorem Extends.mem_exact (h : Extends policy extended rule) :
    found ∈ extended.matchExactRules cmd ↔
      found ∈ policy.matchExactRules cmd ∨ rule.matches cmd = some found := by
  rw [mem_matchExactRules, mem_matchExactRules]
  constructor
  · rintro ⟨first, candidate, hhead, hmem, hmatch⟩
    obtain hold | ⟨-, rfl⟩ := (h.rules first candidate).mp hmem
    · exact .inl ⟨first, candidate, hhead, hold, hmatch⟩
    · exact .inr hmatch
  · rintro (⟨first, candidate, hhead, hmem, hmatch⟩ | hmatch)
    · exact ⟨first, candidate, hhead, (h.rules first candidate).mpr (.inl hmem), hmatch⟩
    · exact ⟨_, rule, first_of_matches hmatch, (h.rules _ rule).mpr (.inr ⟨rfl, rfl⟩), hmatch⟩

theorem Extends.mem_host (h : Extends policy extended rule) :
    found ∈ extended.matchHostExecutableRules surroundings cmd ↔
      found ∈ policy.matchHostExecutableRules surroundings cmd ∨
        policy.matchByName surroundings rule cmd = some found := by
  rw [mem_matchHostExecutableRules, mem_matchHostExecutableRules]
  simp only [matchByName, h.hosts]
  constructor
  · rintro ⟨program, basename, candidate, hresolve, hmem, hmatch⟩
    obtain hold | ⟨-, rfl⟩ := (h.rules basename candidate).mp hmem
    · exact .inl ⟨program, basename, candidate, hresolve, hold, hmatch⟩
    · exact .inr hmatch
  · rintro (⟨program, basename, candidate, hresolve, hmem, hmatch⟩ | hmatch)
    · exact ⟨program, basename, candidate, hresolve, (h.rules basename candidate).mpr (.inl hmem), hmatch⟩
    · obtain ⟨program, basename, plain, hresolve, -, hplain, -⟩ := matchByName_eq_some.mp hmatch
      have hfirst : basename = rule.pattern.first := Option.some.inj (first_of_matches hplain)
      exact ⟨program, basename, rule, hresolve, (h.rules basename rule).mpr (.inr ⟨hfirst, rfl⟩), hmatch⟩

theorem decisionOn_eq (h : policy.checkWithOptions surroundings cmd fallback matchOptions = some evaluation) :
    policy.decisionOn surroundings cmd fallback = evaluation.decision := by
  rw [decisionOn, h]
  rfl

theorem decisionOn_congr
    (hexact : ∀ found, found ∈ policy.matchExactRules cmd ↔ found ∈ other.matchExactRules cmd)
    (hhost : ∀ found, found ∈ policy.matchHostExecutableRules surroundings cmd ↔
      found ∈ other.matchHostExecutableRules surroundings cmd) :
    policy.decisionOn surroundings cmd fallback = other.decisionOn surroundings cmd fallback := by
  obtain ⟨_, h⟩ := checkWithOptions_isSome policy surroundings cmd fallback matchOptions
  obtain ⟨_, h'⟩ := checkWithOptions_isSome other surroundings cmd fallback matchOptions
  have hnil : ∀ {found found' : List RuleMatch}, (∀ x, x ∈ found ↔ x ∈ found') →
      (found = [] ↔ found' = []) := by
    intro found found' hmem
    rw [eq_nil_iff_forall_not_mem, eq_nil_iff_forall_not_mem]
    exact forall_congr' fun x => not_congr (hmem x)
  have hmatches : ∀ found, found ∈ policy.policyMatches surroundings cmd matchOptions ↔
      found ∈ other.policyMatches surroundings cmd matchOptions := by
    intro found
    by_cases hnone : policy.matchExactRules cmd = []
    · rw [matchOptions, policyMatches_host hnone, policyMatches_host ((hnil hexact).mp hnone)]
      exact hhost found
    · rw [policyMatches_exact hnone,
        policyMatches_exact fun hnone' => hnone ((hnil hexact).mpr hnone')]
      exact hexact found
  refine eq_of_forall_le_iff fun bound => ?_
  rw [decisionOn_eq h, decisionOn_eq h', le_check_iff h, le_check_iff h', hnil hmatches]
  simp only [hmatches]

theorem extends_amended (policy : Policy) (first : Text) (rest : List Text) :
    Extends policy (policy.amended first rest) (allowRule first rest) := by
  refine ⟨fun program candidate => ?_, fun _ _ => rfl⟩
  unfold rulesFor amended
  rw [lookup_insertRule, mem_append]
  split
  next h => simp [h, allowRule]
  next h => simp [h, allowRule]

section

variable (h : Extends policy extended rule)
include h

theorem Extends.mergeOverlay (overlay : Policy) :
    Extends (policy.mergeOverlay overlay) (extended.mergeOverlay overlay) rule := by
  refine ⟨fun program candidate => ?_, fun basename program => ?_⟩
  · rw [rulesFor_mergeOverlay, rulesFor_mergeOverlay, mem_append, mem_append, h.rules]
    exact or_right_comm
  · rw [permits_mergeOverlay, permits_mergeOverlay, h.hosts]

theorem Extends.currentForEnvironment (environmentPolicy : Option Policy) :
    Extends (policy.currentForEnvironment environmentPolicy .honor)
      (extended.currentForEnvironment environmentPolicy .honor) rule := by
  cases environmentPolicy with
  | none => exact h
  | some overlay => exact h.mergeOverlay overlay

theorem Extends.decisionOn_eq (h' : Extends policy other rule) :
    extended.decisionOn surroundings cmd fallback = other.decisionOn surroundings cmd fallback :=
  decisionOn_congr (fun _ => h.mem_exact.trans h'.mem_exact.symm)
    fun _ => h.mem_host.trans h'.mem_host.symm

theorem Extends.decisionOn_eq_of_no_match
    (hexact : rule.matches cmd = none) (hname : policy.matchByName surroundings rule cmd = none) :
    extended.decisionOn surroundings cmd fallback = policy.decisionOn surroundings cmd fallback := by
  refine decisionOn_congr (fun found => ?_) (fun found => ?_)
  · rw [h.mem_exact, hexact]
    simp
  · rw [h.mem_host, hname]
    simp

end

end

/-! ## What an amendment does -/

/-- The base policy allows some words by the name of their program: there are rules for it that match, and all of
them allow. -/
def Policy.AllowsByName (policy : Policy) (surroundings : Surroundings) (words : List Text) : Prop :=
  policy.matchHostExecutableRules surroundings words ≠ [] ∧
    ∀ found ∈ policy.matchHostExecutableRules surroundings words, found.decision = .allow

instance (policy : Policy) (surroundings : Surroundings) (words : List Text) :
    Decidable (policy.AllowsByName surroundings words) := inferInstanceAs (Decidable (_ ∧ _))

section

variable {host : ExecHost} {policy updated : Policy} {request : ExecApprovalRequest}
  {commands : List (List Text)} {evaluation : Evaluation} {amendment : ExecPolicyAmendment}

theorem requestedAmendment_eq_some
    (h : requestedAmendment host policy request commands evaluation = some amendment) :
    request.allowPrefixRules = .honor ∧ amendment.command ≠ [] ∧
      evaluation.matchedRules.any isPolicyMatch = false ∧
      prefixRuleWouldApproveAllCommands host.surroundings
        (policy.currentForEnvironment request.environmentPolicy .honor) amendment.command commands
        request.execPolicyFallback = true := by
  obtain ⟨hhonor, h⟩ := Option.ite_none_right_eq_some.mp h
  rw [hhonor] at h
  refine ⟨hhonor, ?_⟩
  unfold deriveRequestedExecpolicyAmendmentFromPrefixRule at h
  split at h
  next => cases h
  next words _ =>
    obtain ⟨hfine, h⟩ := Option.ite_none_left_eq_some.mp h
    push Not at hfine
    split at h
    next happroves =>
      cases h
      exact ⟨hfine.1, (Bool.not_eq_true _).mp hfine.2.2, happroves⟩
    next => cases h

theorem isPolicyMatch_of_matches {rule : PrefixRule}
    (h : rule.matches cmd = some found) : isPolicyMatch found = true := by
  obtain ⟨_, -, rfl⟩ := Option.map_eq_some_iff.mp h
  rfl

theorem isPolicyMatch_of_matchByName {rule : PrefixRule} (h : policy.matchByName surroundings rule cmd = some found) :
    isPolicyMatch found = true := by
  obtain ⟨_, _, plain, -, -, hplain, rfl⟩ := matchByName_eq_some.mp h
  obtain ⟨_, -, rfl⟩ := Option.map_eq_some_iff.mp hplain
  rfl

theorem isPolicyMatch_of_mem {options : MatchOptions} (h : found ∈ policy.policyMatches surroundings cmd options) :
    isPolicyMatch found = true := by
  unfold policyMatches at h
  split at h
  next =>
    obtain ⟨_, _, -, -, hmatch⟩ := mem_matchExactRules.mp h
    exact isPolicyMatch_of_matches hmatch
  next =>
    split at h
    next =>
      obtain ⟨_, _, _, -, -, hmatch⟩ := mem_matchHostExecutableRules.mp h
      exact isPolicyMatch_of_matchByName hmatch
    next => cases h

theorem policyMatches_eq_nil (hevaluation : evaluateRequest host policy request commands = some evaluation)
    (hnone : evaluation.matchedRules.any isPolicyMatch = false) (hcmd : cmd ∈ commands) :
    (policy.currentForEnvironment request.environmentPolicy request.allowPrefixRules).policyMatches
      host.surroundings cmd matchOptions = [] := by
  rw [(fromMatches_matchedRules hevaluation).1] at hnone
  refine eq_nil_iff_forall_not_mem.mpr fun found hfound => ?_
  have hmem : found ∈ commands.flatMap fun command =>
      (policy.currentForEnvironment request.environmentPolicy
        request.allowPrefixRules).matchesForCommandWithOptions host.surroundings command
          (some request.execPolicyFallback) matchOptions := by
    refine mem_flatMap.mpr ⟨cmd, hcmd, ?_⟩
    rw [matchesForCommandWithOptions_some, if_neg (ne_nil_of_mem hfound)]
    exact hfound
  rw [any_eq_true.mpr ⟨found, hmem, isPolicyMatch_of_mem hfound⟩] at hnone
  cases hnone

theorem le_decisionOn_iff {bound : Decision} {fallback : List Text → Decision} :
    bound ≤ policy.decisionOn surroundings cmd fallback ↔ ∃ found ∈ policy.matchesForCommandWithOptions
      surroundings cmd (some fallback) matchOptions, bound ≤ found.decision := by
  obtain ⟨_, h⟩ := checkWithOptions_isSome policy surroundings cmd fallback matchOptions
  rw [decisionOn_eq h, le_decision_iff h]

theorem le_decision_request_iff {bound : Decision}
    (hevaluation : evaluateRequest host policy request commands = some evaluation) :
    bound ≤ evaluation.decision ↔ ∃ cmd ∈ commands,
      bound ≤ (policy.currentForEnvironment request.environmentPolicy
        request.allowPrefixRules).decisionOn host.surroundings cmd request.execPolicyFallback := by
  rw [le_decision_iff hevaluation]
  constructor
  · rintro ⟨found, hfound, hle⟩
    obtain ⟨cmd, hcmd, hmem⟩ := mem_flatMap.mp hfound
    exact ⟨cmd, hcmd, le_decisionOn_iff.mpr ⟨found, hmem, hle⟩⟩
  · rintro ⟨cmd, hcmd, hbound⟩
    obtain ⟨found, hmem, hle⟩ := le_decisionOn_iff.mp hbound
    exact ⟨found, mem_flatMap.mpr ⟨cmd, hcmd, hmem⟩, hle⟩

theorem approves_iff {fallback : List Text → Decision} :
    prefixRuleWouldApproveAllCommands surroundings policy (first :: rest) commands fallback = true ↔
      ∀ cmd ∈ commands, (policy.amended first rest).decisionOn surroundings cmd fallback = .allow := by
  unfold prefixRuleWouldApproveAllCommands
  show commands.all _ = true ↔ _
  rw [all_eq_true]
  refine forall₂_congr fun cmd _ => ?_
  rw [decide_eq_true_iff]
  obtain ⟨single, hsingle⟩ := checkWithOptions_isSome (policy.amended first rest) surroundings cmd
    fallback matchOptions
  rw [decisionOn_eq hsingle]
  unfold amended allowRule at hsingle
  rw [hsingle, Option.map_some, Option.some.injEq]

section

variable (hevaluation : evaluateRequest host policy request commands = some evaluation)
  (hprompt : evaluation.decision = .prompt)
  (hderived : requestedAmendment host policy request commands evaluation = some ⟨first :: rest⟩)
include hevaluation hprompt hderived

/-- **An amendment that was derived matches one of the commands**, which no rule matched before. -/
theorem exists_amended :
    ∃ cmd, (policy.currentForEnvironment request.environmentPolicy .honor).policyMatches
        host.surroundings cmd matchOptions = [] ∧
      (((allowRule first rest).matches cmd).isSome = true ∨
        ((policy.currentForEnvironment request.environmentPolicy .honor).matchByName
          host.surroundings (allowRule first rest) cmd).isSome = true) := by
  obtain ⟨hhonor, -, hnone, happroves⟩ := requestedAmendment_eq_some hderived
  obtain ⟨cmd, hcmd, hle⟩ := (le_decision_request_iff hevaluation).mp (Eq.ge hprompt)
  have hunmatched := policyMatches_eq_nil hevaluation hnone hcmd
  rw [hhonor] at hle hunmatched
  refine ⟨cmd, hunmatched, ?_⟩
  by_contra hno
  push Not at hno
  obtain ⟨hexact, hname⟩ := hno
  let execPolicy := policy.currentForEnvironment request.environmentPolicy .honor
  rw [← (extends_amended execPolicy first rest).decisionOn_eq_of_no_match (by simpa using hexact)
    (by simpa using hname), approves_iff.mp happroves cmd hcmd] at hle
  exact absurd hle (by decide)

theorem matchExactRules_eq_nil : policy.matchExactRules (first :: rest) = [] := by
  obtain ⟨cmd, hunmatched, hmatches⟩ := exists_amended hevaluation hprompt hderived
  let execPolicy := policy.currentForEnvironment request.environmentPolicy .honor
  have hsub : ∀ rule ∈ policy.rulesFor first, rule ∈ execPolicy.rulesFor first := by
    intro rule hrule
    show rule ∈ (policy.currentForEnvironment request.environmentPolicy .honor).rulesFor first
    unfold currentForEnvironment
    split
    next overlay _ =>
      rw [rulesFor_mergeOverlay]
      exact mem_append_left _ hrule
    next => exact hrule
  refine eq_nil_iff_forall_not_mem.mpr fun found hfound => ?_
  obtain ⟨_, rule, hhead, hrule, hmatch⟩ := mem_matchExactRules.mp hfound
  cases hhead
  have hsome : (rule.matches (first :: rest)).isSome = true := by
    rw [hmatch]
    rfl
  have hexactNil : execPolicy.matchExactRules cmd = [] := by
    by_contra hne
    have hpolicy : execPolicy.policyMatches host.surroundings cmd matchOptions =
      execPolicy.matchExactRules cmd := policyMatches_exact hne
    exact hne (hpolicy.symm.trans hunmatched)
  obtain hexact | hname := hmatches
  · have hwords := allowRule_matches.mp hexact
    obtain ⟨other, hother⟩ := Option.isSome_iff_exists.mp (matches_of_isPrefix hsome hwords)
    have hcmdHead : cmd.head? = some first := by
      obtain ⟨more, rfl⟩ := hwords
      rfl
    have hmem : other ∈ execPolicy.matchExactRules cmd :=
      mem_matchExactRules.mpr ⟨first, rule, hcmdHead, hsub rule hrule, hother⟩
    rw [hexactNil] at hmem
    cases hmem
  · obtain ⟨amended, hamended⟩ := Option.isSome_iff_exists.mp hname
    have hnone : execPolicy.matchHostExecutableRules host.surroundings cmd = [] :=
      (policyMatches_host hexactNil).symm.trans hunmatched
    obtain ⟨program, basename, plain, hresolve, hpermits, hplain, -⟩ := matchByName_eq_some.mp hamended
    have hwords := allowRule_matches.mp (Option.isSome_iff_exists.mpr ⟨plain, hplain⟩)
    have hbasename : first = basename := (cons_prefix_cons.mp hwords).1
    obtain ⟨other, hother⟩ := Option.isSome_iff_exists.mp (matches_of_isPrefix hsome hwords)
    have hmem : other.withResolvedProgram program ∈
        execPolicy.matchHostExecutableRules host.surroundings cmd :=
      mem_matchHostExecutableRules.mpr ⟨program, basename, rule, hresolve, hbasename ▸ hsub rule hrule,
        matchByName_eq_some.mpr ⟨program, basename, other, hresolve, hpermits, hother, rfl⟩⟩
    rw [hnone] at hmem
    cases hmem

end

/-- **The shortcut**: nothing is added when the base policy allows the words by the name of their program. -/
theorem appendAmendmentAndUpdate_eq
    {written : Except Text Unit} (hexact : policy.matchExactRules (first :: rest) = [])
    (h : appendAmendmentAndUpdate surroundings policy ⟨first :: rest⟩ written = .ok updated) :
    updated = if policy.AllowsByName surroundings (first :: rest) then policy
      else policy.amended first rest := by
  cases written with
  | error source => cases h
  | ok _ =>
    have hmatches : (policy.matchesForCommandWithOptions surroundings (first :: rest)
        (some fun _ => .forbidden) matchOptions) =
        if policy.matchHostExecutableRules surroundings (first :: rest) = [] then
          [.heuristicsRuleMatch (first :: rest) .forbidden]
        else policy.matchHostExecutableRules surroundings (first :: rest) := by
      rw [matchesForCommandWithOptions_some, matchOptions, policyMatches_host hexact]
    have hallowed : ((policy.checkMultipleWithOptions surroundings [first :: rest]
        (fun _ => .forbidden) matchOptions).any fun evaluation =>
          decide (evaluation.decision = .allow) &&
            evaluation.matchedRules.any (isPolicyMatchWith .allow)) = true ↔
        policy.AllowsByName surroundings (first :: rest) := by
      unfold checkMultipleWithOptions Policy.AllowsByName
      rw [flatMap_singleton, hmatches]
      by_cases hnone : policy.matchHostExecutableRules surroundings (first :: rest) = []
      · rw [if_pos hnone]
        exact iff_of_false Bool.false_ne_true fun hsome => hsome.1 hnone
      · rw [if_neg hnone]
        obtain ⟨evaluation, hevaluation⟩ := fromMatches_isSome hnone
        have hdecides : evaluation.decision ≤ .allow ↔ _ := decision_le_iff hevaluation
        have hrules := (fromMatches_matchedRules hevaluation).1
        have hallow : ∀ decision : Decision, decision ≤ .allow ↔ decision = .allow :=
          fun decision => ⟨fun hle => le_antisymm hle (Decision.allow_le _), Eq.le⟩
        simp only [hallow] at hdecides
        rw [hevaluation, Option.any_some, Bool.and_eq_true, decide_eq_true_iff, hdecides, hrules]
        refine ⟨fun hboth => ⟨hnone, hboth.1⟩, fun hboth => ⟨hboth.2, ?_⟩⟩
        obtain ⟨found, hfound⟩ := exists_mem_of_ne_nil _ hnone
        obtain ⟨_, _, _, -, -, hmatch⟩ := mem_matchHostExecutableRules.mp hfound
        refine any_eq_true.mpr ⟨found, hfound, ?_⟩
        unfold isPolicyMatchWith
        rw [isPolicyMatch_of_matchByName hmatch, hboth.2 found hfound]
        rfl
    unfold appendAmendmentAndUpdate at h
    dsimp only at h
    simp only [hallowed] at h
    split at h
    next hskip =>
      cases h
      rw [if_pos hskip]
    next hadd =>
      cases h
      rw [if_neg hadd]
      rfl

/-- The amendment matches a command, in one of the two tiers. -/
def ExecPolicyAmendment.Matches (amendment : ExecPolicyAmendment) (execPolicy : Policy)
    (surroundings : Surroundings) (cmd : List Text) : Prop :=
  match amendment.command with
  | [] => False
  | first :: rest => ((allowRule first rest).matches cmd).isSome = true ∨
      (execPolicy.matchByName surroundings (allowRule first rest) cmd).isSome = true

theorem evaluateRequest_isSome (hcommands : commands ≠ []) :
    ∃ evaluation, evaluateRequest host policy request commands = some evaluation := by
  refine fromMatches_isSome ?_
  obtain ⟨cmd, hcmd⟩ := exists_mem_of_ne_nil _ hcommands
  obtain ⟨single, hsingle⟩ := checkWithOptions_isSome
    (policy.currentForEnvironment request.environmentPolicy request.allowPrefixRules)
    host.surroundings cmd request.execPolicyFallback matchOptions
  obtain ⟨found, hfound⟩ := exists_mem_of_ne_nil _ (fromMatches_matchedRules hsingle).2
  exact ne_nil_of_mem (mem_flatMap.mpr ⟨cmd, hcmd, hfound⟩)

theorem skip_iff (hevaluation : evaluateRequest host policy request commands = some evaluation) :
    (∃ bypassSandbox proposed, createExecApprovalRequirementForParsedCommands host policy request
      commands = some (.skip bypassSandbox proposed)) ↔ evaluation.decision = .allow := by
  unfold createExecApprovalRequirementForParsedCommands
  rw [hevaluation, Option.map_some]
  cases evaluation.decision with
  | allow => exact iff_of_true ⟨_, _, rfl⟩ rfl
  | forbidden => exact iff_of_false (fun ⟨_, _, h⟩ => by cases h) (by decide)
  | prompt =>
    refine iff_of_false ?_ (by decide)
    rintro ⟨bypassSandbox, proposed, h⟩
    dsimp only at h
    split at h
    · split at h <;> cases h
    · cases h

theorem decision_of_needsApproval {reason : Option Text} {proposed : Option ExecPolicyAmendment}
    (hevaluation : evaluateRequest host policy request commands = some evaluation)
    (hneeds : createExecApprovalRequirementForParsedCommands host policy request commands =
      some (.needsApproval reason proposed)) : evaluation.decision = .prompt := by
  unfold createExecApprovalRequirementForParsedCommands at hneeds
  rw [hevaluation, Option.map_some] at hneeds
  cases hdecision : evaluation.decision with
  | prompt => rfl
  | allow | forbidden =>
    rw [hdecision] at hneeds
    cases hneeds

theorem decision_of_added
    (hderived : requestedAmendment host policy request commands evaluation = some ⟨first :: rest⟩)
    (hevaluation' : evaluateRequest host (policy.amended first rest) request commands =
      some evaluation') : evaluation'.decision = .allow := by
  obtain ⟨hhonor, -, -, happroves⟩ := requestedAmendment_eq_some hderived
  by_contra hstrict
  have hle : Decision.prompt ≤ evaluation'.decision := by
    cases hdecision : evaluation'.decision with
    | allow => exact absurd hdecision hstrict
    | prompt => decide
    | forbidden => decide
  obtain ⟨cmd, hcmd, hcmdStrict⟩ := (le_decision_request_iff hevaluation').mp hle
  rw [hhonor] at hcmdStrict
  rw [((extends_amended policy first rest).currentForEnvironment
    request.environmentPolicy).decisionOn_eq (extends_amended _ first rest),
    approves_iff.mp happroves cmd hcmd] at hcmdStrict
  exact absurd hcmdStrict (by decide)

/-- **An accepted amendment.** Where a request needed approval and an amendment was derived from what it asked for,
the same request is skipped after the update, if and only if the base policy does not already allow the
words by the name of their program. And in any case, under any overlay, a command that rules matched is
decided as before unless the amendment matches it. -/
theorem amendment_takes_effect_iff {reason : Option Text} {written : Except Text Unit}
    (hevaluation : evaluateRequest host policy request commands = some evaluation)
    (hneeds : createExecApprovalRequirementForParsedCommands host policy request commands =
      some (.needsApproval reason (some amendment)))
    (hderived : requestedAmendment host policy request commands evaluation = some amendment)
    (hupdate : appendAmendmentAndUpdate host.surroundings policy amendment written = .ok updated) :
    ((∃ bypassSandbox proposed, createExecApprovalRequirementForParsedCommands host updated request
        commands = some (.skip bypassSandbox proposed)) ↔
      ¬ policy.AllowsByName host.surroundings amendment.command) ∧
    ∀ environmentPolicy cmd fallback before after,
      (policy.currentForEnvironment environmentPolicy .honor).checkWithOptions host.surroundings cmd
        fallback matchOptions = some before → before.matchedRules.any isPolicyMatch = true →
      (updated.currentForEnvironment environmentPolicy .honor).checkWithOptions host.surroundings cmd
        fallback matchOptions = some after →
      ¬ amendment.Matches (policy.currentForEnvironment environmentPolicy .honor) host.surroundings cmd →
      after.decision = before.decision := by
  have hprompt := decision_of_needsApproval hevaluation hneeds
  obtain ⟨_, hwords, -⟩ := requestedAmendment_eq_some hderived
  obtain ⟨words⟩ := amendment
  cases words with
  | nil => exact absurd rfl hwords
  | cons first rest =>
    have hexact := matchExactRules_eq_nil hevaluation hprompt hderived
    have hupdated := appendAmendmentAndUpdate_eq hexact hupdate
    by_cases hallows : policy.AllowsByName host.surroundings (first :: rest)
    · rw [if_pos hallows] at hupdated
      subst hupdated
      constructor
      · rw [skip_iff hevaluation, hprompt]
        exact iff_of_false (by decide) fun hno => hno hallows
      · intro environmentPolicy cmd fallback before after hbefore _ hafter _
        rw [hbefore] at hafter
        cases hafter
        rfl
    · rw [if_neg hallows] at hupdated
      subst hupdated
      constructor
      · have hcommands : commands ≠ [] := by
          rintro rfl
          cases hevaluation
        obtain ⟨evaluation', hevaluation'⟩ : ∃ evaluation', evaluateRequest host
            (policy.amended first rest) request commands = some evaluation' :=
          evaluateRequest_isSome hcommands
        rw [skip_iff hevaluation']
        exact iff_of_true (decision_of_added hderived hevaluation') hallows
      · intro environmentPolicy cmd fallback before after hbefore _ hafter hno
        obtain ⟨hfirst, hname⟩ := not_or.mp hno
        rw [← decisionOn_eq hbefore, ← decisionOn_eq hafter]
        exact ((extends_amended policy first rest).currentForEnvironment
          environmentPolicy).decisionOn_eq_of_no_match (by simpa using hfirst) (by simpa using hname)

end

/-! ## Instances -/

/-- A host that answers nothing. -/
def plainHost : ExecHost := ⟨⟨none, none, false⟩, fun _ => none, fun _ => none⟩

/-- A request that is not covered by rules. -/
def unmatchedRequest (words : List Text) (environmentPolicy : Option Policy) : ExecApprovalRequest :=
  ⟨words, .onRequest, environmentPolicy, some words, .honor, fun _ => .prompt⟩

theorem amendment_takes_effect_make : ∃ updated bypassSandbox proposed,
    appendAmendmentAndUpdate ⟨none, none, false⟩ Policy.empty ⟨["/bin/make".toList]⟩ (.ok ()) = .ok updated ∧
      createExecApprovalRequirementForParsedCommands plainHost updated
        (unmatchedRequest ["/bin/make".toList] none) [["/bin/make".toList]] =
          some (.skip bypassSandbox proposed) := by
  obtain ⟨hskip, -⟩ := amendment_takes_effect_iff (by rfl)
    (show createExecApprovalRequirementForParsedCommands plainHost empty
      (unmatchedRequest ["/bin/make".toList] none) [["/bin/make".toList]] =
        some (.needsApproval none (some ⟨["/bin/make".toList]⟩)) by decide +kernel)
    (by decide +kernel) (show appendAmendmentAndUpdate _ _ _ (.ok ()) = .ok _ by rfl)
  obtain ⟨bypassSandbox, proposed, hrequirement⟩ := hskip.mpr (by decide +kernel)
  exact ⟨_, bypassSandbox, proposed, rfl, hrequirement⟩

/-- A base policy that allows a program by its name. -/
def allowsGit : Policy :=
  { Policy.empty with
    rulesByProgram := Policy.insertRule ∅ "git".toList ⟨⟨"git".toList, []⟩, .allow, none⟩ }

/-- An overlay that says where the program may be found, at another path. -/
def gitInOpt : Policy :=
  { Policy.empty with
    hostExecutablesByName := AList.insert "git".toList
      [Permissions.normalizePath (Permissions.components (Utf8.encode "/opt/git".toList))] ∅ }

/-- The amendment is accepted and nothing changes: the same request needs approval again. -/
theorem amendment_without_effect : ∃ updated,
    createExecApprovalRequirementForParsedCommands plainHost allowsGit
        (unmatchedRequest ["/usr/bin/git".toList] (some gitInOpt)) [["/usr/bin/git".toList]] =
          some (.needsApproval none (some ⟨["/usr/bin/git".toList]⟩)) ∧
      appendAmendmentAndUpdate plainHost.surroundings allowsGit ⟨["/usr/bin/git".toList]⟩ (.ok ()) =
        .ok updated ∧
      createExecApprovalRequirementForParsedCommands plainHost updated
        (unmatchedRequest ["/usr/bin/git".toList] (some gitInOpt)) [["/usr/bin/git".toList]] =
          some (.needsApproval none (some ⟨["/usr/bin/git".toList]⟩)) := by
  refine ⟨_, by decide +kernel, rfl, by decide +kernel⟩

end NovumAgent.ExecPolicy
