import NovumAgent.ExecPolicy.Policy
import NovumAgent.NetworkProxy.Lowercase

/-!
# Network rules across restarts

A network rule is kept twice: in the policy in memory, and as a line of the rules file that the next start
reads. The host is normalized before the line is written, and once more when it is read. Brackets, a port,
dots at the end and the blanks around the rest go in this order and once each. So a text may have
something left that goes the second time: a bracket behind a bracket, a dot in front of blanks, a port
inside brackets or in front of dots (`Frays`). These three kinds are all there is
(`same_after_restart_iff`).

`serde_json` writes the texts of a line as literals, and Starlark reads the line as a call; both lie
outside the repository. What is used of them is that the line at hand is read back as it was written
(`Literals.ReadsBack`).
-/

namespace NovumAgent.ExecPolicy

open List Text NetworkProxy

/-! ## Hosts -/

/-- What stands behind the colon of a port. -/
def isPort (port : Text) : Bool := port ≠ [] ∧ port.all (·.isDigit)

/-- What stands before a colon with a port, if there is no other colon. -/
def portCandidate (host : Text) : Option Text :=
  let candidate := host.takeWhile (· ≠ ':')
  if host.count ':' = 1 ∧ candidate ≠ [] ∧ isPort ((host.dropWhile (· ≠ ':')).drop 1) then some candidate
  else none

/-- The host without brackets and port, or the text of the error. -/
def hostPart (raw : Text) : Text → Except Text Text
  | '[' :: stripped =>
    if ']' ∉ stripped then .error "network_rule host has an invalid bracketed IPv6 literal".toList
    else
      let rest := (stripped.dropWhile (· ≠ ']')).drop 1
      let portOk : Bool := rest.head? = some ':' ∧ isPort (rest.drop 1)
      if rest ≠ [] ∧ !portOk then
        .error ("network_rule host contains an unsupported suffix: ".toList ++ raw)
      else .ok (stripped.takeWhile (· ≠ ']'))
  | host => .ok ((portCandidate host).getD host)

/-- `normalize_network_rule_host`, or the text of the error. -/
def normalizeNetworkRuleHost (raw : Text) : Except Text Text :=
  let host := trim raw
  if host = [] then .error "network_rule host cannot be empty".toList
  else if "://".toList <:+: host ∨ '/' ∈ host ∨ '?' ∈ host ∨ '#' ∈ host then
    .error "network_rule host must be a hostname or IP literal (without scheme or path)".toList
  else do
    let host ← hostPart raw host
    let normalized := toAsciiLowercase (trim (trimEndDots host))
    if normalized = [] then .error "network_rule host cannot be empty".toList
    else if '*' ∈ normalized then
      .error "network_rule host must be a specific host; wildcards are not allowed".toList
    else if normalized.any isWhitespace then .error "network_rule host cannot contain whitespace".toList
    else .ok normalized

/-! ## Rules -/

def NetworkRuleProtocol.asPolicyString : NetworkRuleProtocol → Text
  | http => "http".toList
  | https => "https".toList
  | socks5Tcp => "socks5_tcp".toList
  | socks5Udp => "socks5_udp".toList

def NetworkRuleProtocol.parse (raw : Text) : Except Text NetworkRuleProtocol :=
  if raw = "http".toList then .ok http
  else if raw ∈ ["https".toList, "https_connect".toList, "http-connect".toList] then .ok https
  else if raw = "socks5_tcp".toList then .ok socks5Tcp
  else if raw = "socks5_udp".toList then .ok socks5Udp
  else .error ("network_rule protocol must be one of http, https, socks5_tcp, socks5_udp (got ".toList ++
    raw ++ ")".toList)

/-- The decision in a rule line. -/
def decisionString : Decision → Text
  | .allow => "allow".toList
  | .prompt => "prompt".toList
  | .forbidden => "deny".toList

def parseNetworkRuleDecision (raw : Text) : Except Text Decision :=
  if raw ∈ ["deny".toList, "forbidden".toList] then .ok .forbidden
  else if raw = "allow".toList then .ok .allow
  else if raw = "prompt".toList then .ok .prompt
  else .error raw

/-- A justification is not blank. -/
def checkJustification (justification : Option Text) : Except Text Unit :=
  if justification.any (trim · = []) then .error "justification cannot be empty".toList else .ok ()

def Policy.addNetworkRule (policy : Policy) (host : Text) (protocol : NetworkRuleProtocol)
    (decision : Decision) (justification : Option Text) : Except Text Policy := do
  let host ← normalizeNetworkRuleHost host
  checkJustification justification
  .ok { policy with networkRules := policy.networkRules ++ [⟨host, protocol, decision, justification⟩] }

/-- The arguments of a call of `network_rule`. -/
structure NetworkRuleCall where
  host : Text
  protocol : Text
  decision : Text
  justification : Option Text

/-- The rule line that `blocking_append_network_rule` writes, with its texts as literals. -/
def NetworkRuleCall.line (call : NetworkRuleCall) (literal : Text → Text) : Text :=
  let args := ["host=".toList ++ literal call.host, "protocol=".toList ++ literal call.protocol,
    "decision=".toList ++ literal call.decision] ++
    call.justification.toList.map ("justification=".toList ++ literal ·)
  "network_rule(".toList ++ join ", ".toList args ++ ")".toList

/-- **The literals of rule lines**: `serde_json` writes a text as a literal, and Starlark calls a function with
the texts that stand in a line. -/
structure Literals where
  toString : Text → Text
  readCall : Text → Option NetworkRuleCall

/-- The line of a call is read back as that call. -/
def Literals.ReadsBack (literals : Literals) (call : NetworkRuleCall) : Prop :=
  literals.readCall (call.line literals.toString) = some call

/-- `blocking_append_network_rule`: the line that is appended. -/
def Literals.networkRuleLine (literals : Literals) (host : Text) (protocol : NetworkRuleProtocol)
    (decision : Decision) (justification : Option Text) : Except Text Text := do
  let host ← normalizeNetworkRuleHost host
  checkJustification justification
  .ok (NetworkRuleCall.line ⟨host, protocol.asPolicyString, decisionString decision, justification⟩
    literals.toString)

/-- `network_rule`, for a line that the next start reads. -/
def Literals.loadLine (literals : Literals) (policy : Policy) (line : Text) : Except Text Policy :=
  match literals.readCall line with
  | none => .error line
  | some call => do
    let protocol ← NetworkRuleProtocol.parse call.protocol
    let decision ← parseNetworkRuleDecision call.decision
    checkJustification call.justification
    let host ← normalizeNetworkRuleHost call.host
    .ok { policy with
      networkRules := policy.networkRules ++ [⟨host, protocol, decision, call.justification⟩] }

/-! ## Normal forms -/

section NormalForms

variable {raw host part : Text}

theorem trim_sublist (t : Text) : trim t <+ t :=
  (List.rdropWhile_prefix _ _).sublist.trans (dropWhile_sublist _)

theorem hostPart_sublist (h : hostPart raw host = .ok part) : part <+ host := by
  unfold hostPart at h
  split at h
  next stripped =>
    split at h
    · cases h
    · dsimp only at h
      split at h
      · cases h
      · cases h
        exact (takeWhile_sublist _).trans (sublist_cons_self _ _)
  next =>
    cases h
    unfold portCandidate
    dsimp only
    split
    · exact takeWhile_sublist _
    · exact Sublist.refl _

theorem hostPart_eq_self_iff :
    hostPart raw host = .ok host ↔ host.head? ≠ some '[' ∧ portCandidate host = none := by
  unfold hostPart
  split
  next stripped =>
    refine iff_of_false (fun h => ?_) fun h => h.1 rfl
    have hle : ('[' :: stripped).length ≤ stripped.length := by
      split at h
      · cases h
      · dsimp only at h
        split at h
        · cases h
        · rw [Except.ok.injEq] at h
          rw [← h]
          exact (takeWhile_sublist _).length_le
    rw [length_cons] at hle
    omega
  next hno =>
    have hhead : host.head? ≠ some '[' := by
      intro hhead
      obtain ⟨rest, rfl⟩ := head?_eq_some_iff.mp hhead
      exact hno rest rfl
    rw [Except.ok.injEq]
    cases hcandidate : portCandidate host with
    | none => simp [hhead]
    | some candidate =>
      refine iff_of_false (fun hsame => ?_) (by simp)
      unfold portCandidate at hcandidate
      obtain ⟨hport, ⟨⟩⟩ := Option.ite_none_right_eq_some.mp hcandidate
      have hcolon : ':' ∈ host := count_pos_iff.mp (by omega)
      rw [← hsame] at hcolon
      simpa using mem_takeWhile_imp hcolon

/-- What a normalized host is free of. -/
structure Plain (host : Text) : Prop where
  ne_nil : host ≠ []
  path : ∀ c ∈ host, c ≠ '/' ∧ c ≠ '?' ∧ c ≠ '#'
  star : '*' ∉ host
  blank : ∀ c ∈ host, isWhitespace c = false
  lower : toAsciiLowercase host = host

theorem normalizeNetworkRuleHost_ok (h : normalizeNetworkRuleHost raw = .ok host) :
    Plain host ∧ ∃ part, hostPart raw (trim raw) = .ok part ∧
      host = toAsciiLowercase (trim (trimEndDots part)) := by
  unfold normalizeNetworkRuleHost at h
  dsimp only at h
  split at h
  · cases h
  split at h
  · cases h
  next hpath =>
    cases hpart : hostPart raw (trim raw) with
    | error e => rw [hpart] at h; cases h
    | ok part =>
      rw [hpart] at h
      replace h : (if _ then _ else _) = _ := h
      split_ifs at h with hnil hstar hblank
      cases h
      refine ⟨⟨hnil, fun c hc => ?_, hstar, fun c hc => ?_, toAsciiLowercase_toAsciiLowercase _⟩, part,
        rfl, rfl⟩
      · obtain ⟨d, hd, rfl⟩ := mem_map.mp hc
        have hraw : d ∈ trim raw := ((trim_sublist _).trans
          ((List.rdropWhile_prefix _ _).sublist.trans (hostPart_sublist hpart))).subset hd
        simp only [ne_eq, asciiLowercase_eq_iff (show NoLetter '/' by decide),
          asciiLowercase_eq_iff (show NoLetter '?' by decide),
          asciiLowercase_eq_iff (show NoLetter '#' by decide)]
        grind
      · simpa using fun hc' => hblank (any_eq_true.mpr ⟨c, hc, hc'⟩)

/-- **A host that is left as it is**: no bracket in front, no port and no dot at the end. -/
def Settled (host : Text) : Prop :=
  (host.head? ≠ some '[' ∧ portCandidate host = none) ∧ host.getLast? ≠ some '.'

theorem Plain.normalize_iff (h : Plain host) :
    normalizeNetworkRuleHost host = .ok host ↔ Settled host := by
  have htrim : trim host = host := trim_of_not_blank h.blank
  rw [Settled, ← @hostPart_eq_self_iff host, ← trimEndDots_eq_self_iff]
  constructor
  · intro hnormal
    obtain ⟨-, part, hpart, hhost⟩ := normalizeNetworkRuleHost_ok hnormal
    rw [htrim] at hpart
    have hdots : trimEndDots part <+ part := (List.rdropWhile_prefix _ _).sublist
    -- Every step takes something away or nothing, and in the end nothing is missing.
    have hlen : host.length ≤ (trimEndDots part).length := by
      rw [hhost, toAsciiLowercase, length_map]
      exact (trim_sublist _).length_le
    have hsame : part = host :=
      (hostPart_sublist hpart).eq_of_length_le (hlen.trans hdots.length_le)
    rw [hsame] at hpart hdots hlen
    exact ⟨hpart, hdots.eq_of_length_le hlen⟩
  · rintro ⟨hpart, hdots⟩
    have hpath : ¬("://".toList <:+: host ∨ '/' ∈ host ∨ '?' ∈ host ∨ '#' ∈ host) := by
      rintro (hscheme | hmem | hmem | hmem)
      · exact (h.path '/' (hscheme.subset (by decide))).1 rfl
      · exact (h.path _ hmem).1 rfl
      · exact (h.path _ hmem).2.1 rfl
      · exact (h.path _ hmem).2.2 rfl
    have hblank : ¬host.any isWhitespace = true := by simpa using h.blank
    simp only [normalizeNetworkRuleHost, htrim, if_neg h.ne_nil, if_neg hpath, hpart, bind, Except.bind,
      hdots, h.lower, if_neg h.star, if_neg hblank]

/-! ## Texts that are not through -/

/-- Nothing but blanks. -/
def Blank (t : Text) : Prop := ∀ c ∈ t, isWhitespace c = true

/-- Nothing but dots. -/
def Dots (t : Text) : Prop := ∀ c ∈ t, c = '.'

/-- The part of a text that stands for the host: what is inside its brackets, what is in front of its port,
or all of it. -/
def hostText (raw : Text) : Text :=
  match trim raw with
  | '[' :: stripped => stripped.takeWhile (· ≠ ']')
  | host => (portCandidate host).getD host

/-- **The texts with something left to lose**: another bracket in front, a dot with blanks and then perhaps
more dots behind it, or a port with nothing but blanks and then dots behind it. -/
inductive Frays : Text → Prop where
  | bracket {blanks rest} (hblanks : Blank blanks) : Frays (blanks ++ '[' :: rest)
  | dot {front blanks dots} (hblanks : Blank blanks) (hne : blanks ≠ []) (hdots : Dots dots) :
    Frays (front ++ '.' :: blanks ++ dots)
  | port {before host after dots} (hbefore : Blank before) (htrim : trim host = host)
      (hlast : host.getLast? ≠ some '.') (hport : portCandidate host ≠ none) (hafter : Blank after)
      (hdots : Dots dots) : Frays (before ++ host ++ after ++ dots)

theorem hostPart_ok (h : hostPart raw (trim raw) = .ok part) : part = hostText raw := by
  unfold hostPart at h
  unfold hostText
  split at h
  next stripped heq =>
    split at h
    · cases h
    · dsimp only at h
      split at h
      · cases h
      · cases h
        rfl
  next hno =>
    cases h
    rfl

theorem isDigit_iff (c : Char) : c.isDigit = true ↔ 48 ≤ c.toNat ∧ c.toNat ≤ 57 := by
  rw [Char.isDigit, Bool.and_eq_true, decide_eq_true_eq, decide_eq_true_eq]
  rfl

theorem isDigit_asciiLowercase (c : Char) : (asciiLowercase c).isDigit = c.isDigit := by
  rw [Bool.eq_iff_iff, isDigit_iff, isDigit_iff, toNat_asciiLowercase]
  split <;> omega

/-- Letter case plays no part in what is settled. -/
theorem settled_toAsciiLowercase : Settled (toAsciiLowercase host) ↔ Settled host := by
  have hport : ∀ port : Text, isPort (toAsciiLowercase port) = isPort port := fun port => by
    unfold isPort toAsciiLowercase
    rw [all_map, show (fun c : Char => c.isDigit) ∘ asciiLowercase = fun c => c.isDigit from
      funext isDigit_asciiLowercase]
    simp
  have hdrop : ((toAsciiLowercase host).dropWhile (· ≠ ':')).drop 1 =
      toAsciiLowercase ((host.dropWhile (· ≠ ':')).drop 1) := by
    unfold toAsciiLowercase
    rw [dropWhile_map, map_drop, show (fun c : Char => decide (c ≠ ':')) ∘ asciiLowercase =
      fun c => decide (c ≠ ':') from funext fun c => by
        simp only [Function.comp_apply, ne_eq, asciiLowercase_eq_iff (show NoLetter ':' by decide)]]
  have hcandidate : portCandidate (toAsciiLowercase host) = none ↔ portCandidate host = none := by
    unfold portCandidate
    dsimp only
    rw [ite_eq_right_iff, ite_eq_right_iff, count_toAsciiLowercase (by decide),
      takeWhile_toAsciiLowercase (by decide), hdrop, hport]
    simp [toAsciiLowercase]
  have hedge : ∀ {o : Option Char} {d : Char}, NoLetter d →
      (o.map asciiLowercase ≠ some d ↔ o ≠ some d) := fun hd => by
    simp only [ne_eq, Option.map_eq_some_iff, asciiLowercase_eq_iff hd, exists_eq_right]
  unfold Settled
  rw [hcandidate, toAsciiLowercase, head?_map, getLast?_map, hedge (by decide), hedge (by decide)]

theorem exists_rdropWhile (p : Char → Bool) (t : Text) :
    ∃ tail, t = t.rdropWhile p ++ tail ∧ ∀ c ∈ tail, p c = true := by
  refine ⟨(t.reverse.takeWhile p).reverse, ?_, fun c hc => mem_takeWhile_imp (mem_reverse.mp hc)⟩
  rw [rdropWhile, ← reverse_append, takeWhile_append_dropWhile, reverse_reverse]

theorem trimEndDots_append {t dots : Text} (hdots : Dots dots) (hlast : t.getLast? ≠ some '.') :
    trimEndDots (t ++ dots) = t := by
  have hall : ∀ c ∈ dots.reverse, decide (c = '.') = true := fun c hc =>
    decide_eq_true (hdots c (mem_reverse.mp hc))
  have hsame := trimEndDots_eq_self_iff.mpr hlast
  unfold trimEndDots rdropWhile at hsame ⊢
  rw [reverse_append, dropWhile_append_of_pos hall, hsame]

/-- Blanks around a text are trimmed away. -/
theorem trim_blanks {before t after : Text} (hbefore : Blank before) (hafter : Blank after) :
    trim (before ++ t ++ after) = trim t := by
  have hend : trim (before ++ t ++ after) = trim (before ++ t) := by
    induction after using reverseRecOn with
    | nil => rw [append_nil]
    | append_singleton after c ih =>
      rw [← append_assoc, trim_concat (hafter c (by simp)),
        ih fun d hd => hafter d (mem_append_left _ hd)]
  rw [hend, trim, trim, trimStart, dropWhile_append_of_pos hbefore, ← trimStart]

/-- A text is what is left of it between blanks, with dots behind. If the blanks behind it are none, it ends in
no dot. -/
theorem exists_frame (t : Text) : ∃ before after dots,
    t = before ++ trim (trimEndDots t) ++ after ++ dots ∧ Blank before ∧ Blank after ∧ Dots dots ∧
      (after = [] → (trim (trimEndDots t)).getLast? ≠ some '.') := by
  obtain ⟨dots, hdots, hall⟩ := exists_rdropWhile (· = '.') t
  obtain ⟨after, hafter, hblank⟩ := exists_rdropWhile isWhitespace (trimStart (trimEndDots t))
  have hbefore := takeWhile_append_dropWhile (p := isWhitespace) (l := trimEndDots t)
  refine ⟨(trimEndDots t).takeWhile isWhitespace, after, dots, ?_, fun c hc => mem_takeWhile_imp hc, hblank,
    fun c hc => of_decide_eq_true (hall c hc), ?_⟩
  · rw [append_assoc _ _ after, trim, trimEnd, ← hafter, trimStart, hbefore]
    exact hdots
  · rintro rfl hdot
    rw [append_nil] at hafter
    have hlast : (trimEndDots t).getLast? ≠ some '.' :=
      trimEndDots_eq_self_iff.mp (rdropWhile_idempotent _ t)
    rw [← hbefore, show (trimEndDots t).dropWhile isWhitespace = trim (trimEndDots t) from hafter,
      getLast?_append, hdot] at hlast
    exact hlast rfl

theorem Frays.not_settled {t : Text} (h : Frays t) : ¬ Settled (trim (trimEndDots t)) := by
  have hblank : ∀ {t u : Text}, Blank u → t.getLast? ≠ some '.' ∨ u ≠ [] →
      (t ++ u).getLast? ≠ some '.' := by
    intro t u hu hor
    rcases eq_nil_or_concat' u with rfl | ⟨blanks, c, rfl⟩
    · rw [append_nil]
      exact hor.resolve_right fun hne => hne rfl
    · rw [← append_assoc, getLast?_concat, ne_eq, Option.some.injEq]
      rintro rfl
      cases hu '.' (by simp)
  cases h with
  | @bracket blanks rest hblanks =>
    obtain ⟨dots, hrest, hdots⟩ := exists_rdropWhile (· = '.') rest
    have hlast : (blanks ++ '[' :: trimEndDots rest).getLast? ≠ some '.' := by
      rw [getLast?_append, getLast?_cons, Option.some_or, ne_eq, Option.some.injEq]
      have hend := trimEndDots_eq_self_iff.mp (rdropWhile_idempotent (· = '.') rest)
      cases hlast : (trimEndDots rest).getLast? with
      | none => decide
      | some c => exact fun heq => hend (hlast.trans (congrArg some heq))
    have hcut := @trimEndDots_append _ dots (fun c hc => of_decide_eq_true (hdots c hc)) hlast
    rw [append_assoc, cons_append, show trimEndDots rest ++ dots = rest from hrest.symm] at hcut
    have hstart := trim_blanks (t := '[' :: trimEndDots rest) hblanks (show Blank [] from nofun)
    obtain ⟨u, hu⟩ := trim_cons (c := '[') (t := trimEndDots rest) rfl
    rw [append_nil, hu] at hstart
    rw [hcut, hstart]
    exact fun hsettled => hsettled.1.1 rfl
  | @dot front blanks dots hblanks hne hdots =>
    have hend := @trim_blanks [] (front ++ ['.']) blanks nofun hblanks
    rw [nil_append, append_assoc, singleton_append] at hend
    have hlast : (front ++ '.' :: blanks).getLast? ≠ some '.' := by
      have := hblank (t := front ++ ['.']) hblanks (.inr hne)
      rwa [append_assoc, singleton_append] at this
    rw [trimEndDots_append hdots hlast, hend]
    refine fun hsettled => hsettled.2 ?_
    have hstop : ∀ v : Text, trimEnd (v ++ ['.']) = v ++ ['.'] := fun v =>
      rdropWhile_concat_neg _ _ _ (by decide)
    unfold trim trimStart
    rw [dropWhile_append]
    split
    · exact congrArg getLast? (hstop [])
    · rw [hstop, getLast?_concat]
  | @port before host after dots hbefore htrim hlast hport hafter hdots =>
    have hne : host ≠ [] := fun hnil => hport (hnil ▸ rfl)
    have hfront : (before ++ host).getLast? ≠ some '.' := by
      rwa [getLast?_append_of_ne_nil _ hne]
    rw [trimEndDots_append hdots (hblank hafter (.inl hfront)), trim_blanks hbefore hafter, htrim]
    exact fun hsettled => hport hsettled.1.2

theorem frays_of_not_settled {t : Text}
    (hblank : ∀ c ∈ trim (trimEndDots t), isWhitespace c = false)
    (h : ¬ Settled (trim (trimEndDots t))) : Frays t := by
  obtain ⟨before, after, dots, ht, hbefore, hafter, hdots, hlast⟩ := exists_frame t
  revert ht hlast h hblank
  generalize trim (trimEndDots t) = core
  intro hblank h ht hlast
  subst ht
  by_cases hhead : core.head? = some '['
  · obtain ⟨rest, rfl⟩ := head?_eq_some_iff.mp hhead
    rw [append_assoc, append_assoc, cons_append]
    exact .bracket hbefore
  by_cases hdot : core.getLast? = some '.'
  · obtain ⟨front, rfl⟩ := getLast?_eq_some_iff.mp hdot
    have hne : after ≠ [] := fun hnil => hlast hnil hdot
    have hshape := @Frays.dot (before ++ front) after dots hafter hne hdots
    simpa using hshape
  · have hport : portCandidate core ≠ none := fun hnone => h ⟨⟨hhead, hnone⟩, hdot⟩
    exact .port hbefore (trim_of_not_blank hblank) hdot hport hafter hdots

end NormalForms

/-! ## Restarts -/

/-- **A rule means the same before and after a restart**: the host its text was normalized to is normalized to
itself, and the line that is written for it adds what was added in memory, or the same error came up before. -/
def SameAfterRestart (literals : Literals) (policy : Policy) (raw host : Text)
    (protocol : NetworkRuleProtocol) (decision : Decision) (justification : Option Text) : Prop :=
  normalizeNetworkRuleHost host = .ok host ∧
    (literals.networkRuleLine raw protocol decision justification).bind (literals.loadLine policy) =
      policy.addNetworkRule raw protocol decision justification

theorem settled_normalized_iff {raw host : Text} (h : normalizeNetworkRuleHost raw = .ok host) :
    Settled host ↔ ¬ Frays (hostText raw) := by
  obtain ⟨hplain, part, hpart, rfl⟩ := normalizeNetworkRuleHost_ok h
  obtain rfl := hostPart_ok hpart
  rw [settled_toAsciiLowercase]
  refine ⟨fun hsettled hfrays => hfrays.not_settled hsettled, fun hnot => ?_⟩
  by_contra hsettled
  refine hnot (frays_of_not_settled (fun c hc => ?_) hsettled)
  rw [← isWhitespace_asciiLowercase]
  exact hplain.blank _ (mem_map_of_mem hc)

/-- **When a rule means the same after a restart.** A text that is accepted is normalized, written and read
back as the rule that is in memory just if its host part does not fray. -/
theorem same_after_restart_iff (literals : Literals) (policy : Policy) (raw host : Text)
    (protocol : NetworkRuleProtocol) (decision : Decision) (justification : Option Text)
    (haccepted : normalizeNetworkRuleHost raw = .ok host)
    (hread : literals.ReadsBack
      ⟨host, protocol.asPolicyString, decisionString decision, justification⟩) :
    SameAfterRestart literals policy raw host protocol decision justification ↔
      ¬ Frays (hostText raw) := by
  rw [← settled_normalized_iff haccepted, ← (normalizeNetworkRuleHost_ok haccepted).1.normalize_iff,
    SameAfterRestart, and_iff_left_iff_imp]
  intro hsame
  have hprotocol : NetworkRuleProtocol.parse protocol.asPolicyString = .ok protocol := by
    cases protocol <;> rfl
  have hdecision : parseNetworkRuleDecision (decisionString decision) = .ok decision := by
    cases decision <;> rfl
  have hread : literals.readCall _ = some _ := hread
  unfold Literals.networkRuleLine Policy.addNetworkRule
  cases hjustified : checkJustification justification with
  | error e => simp [haccepted, bind, Except.bind]
  | ok =>
    simp only [haccepted, bind, Except.bind, Literals.loadLine, hread, hprotocol, hdecision,
      hjustified, hsame]

/-- `serde_json` on texts with nothing to escape, and a reader that knows the line of one call. -/
def plainLiterals (call : NetworkRuleCall) : Literals where
  toString text := '"' :: text ++ ['"']
  readCall line := if line = call.line fun text => '"' :: text ++ ['"'] then some call else none

theorem plainLiterals_readsBack (call : NetworkRuleCall) : (plainLiterals call).ReadsBack call := if_pos rfl

/-- The port of a plain host is taken off once, and the rule is the same after a restart. -/
theorem same_after_restart_https :
    normalizeNetworkRuleHost "Example.COM:443".toList = .ok "example.com".toList ∧
      SameAfterRestart (plainLiterals ⟨"example.com".toList, "https".toList, "allow".toList, none⟩) .empty
        "Example.COM:443".toList "example.com".toList .https .allow none := by
  have haccepted : normalizeNetworkRuleHost "Example.COM:443".toList = .ok "example.com".toList := by
    decide +kernel
  refine ⟨haccepted, (same_after_restart_iff _ .empty _ _ .https .allow none haccepted
    (plainLiterals_readsBack _)).mpr ?_⟩
  rw [← settled_normalized_iff haccepted]
  unfold Settled
  decide +kernel

/-- A port inside brackets is kept in memory, and lost at the next start. -/
theorem bracketed_port_lost :
    normalizeNetworkRuleHost "[localhost:8080]".toList = .ok "localhost:8080".toList ∧
      normalizeNetworkRuleHost "localhost:8080".toList = .ok "localhost".toList := by
  decide +kernel

end NovumAgent.ExecPolicy
