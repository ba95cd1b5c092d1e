import NovumAgent.NetworkProxy.Compiled

/-!
# A configuration within its constraints

The check compares the texts of patterns, the proxy matches hosts. For two patterns that both read
the same way, `DomainPattern.allows` is sound: what the one matches the other matches too
(`patternMatches_of_allows`). Ordinary entries, a wildcard and a domain, are read the same way
(`Ordinary.readAlike`); addresses in brackets and wildcards next to a colon are not. A managed denial
is never lost, and a configuration whose entries are ordinary, or are managed entries themselves,
allows only hosts that the managed list allows (`validated_narrows`).
-/

namespace NovumAgent.NetworkProxy

open List Text Glob

/-! ## The forms as patterns -/

namespace DomainPattern

/-- The domain of a form. -/
def domain : DomainPattern → Text
  | apexAndSubdomains domain => domain
  | subdomainsOnly domain => domain
  | exact domain => domain

/-- The globs that the check has in mind for a form. -/
def candidates : DomainPattern → List Text
  | exact domain => [normalizeDomain domain]
  | subdomainsOnly domain => ["?*.".toList ++ normalizeDomain domain]
  | apexAndSubdomains domain => [normalizeDomain domain, "?*.".toList ++ normalizeDomain domain]

end DomainPattern

/-- A domain whose leading stars, if any, are not all that is in front of a dot. -/
def anchored (domain : Text) : Bool := (domain.dropWhile (· = '*')).head? ≠ some '.'

section Forms

variable {same : Char → Char → Bool} {x nd c t : Text} {child parent : Text} {m e : DomainPattern}

theorem subdomains_eq (nd : Text) : "?*.".toList ++ nd = ['?', '*'] ++ '.' :: nd := by
  rw [show "?*.".toList = ['?', '*', '.'] from by decide]
  rfl

theorem matches_subdomains {u v : Text} (hu : u ≠ []) (hv : Matches same ('.' :: nd) v) :
    Matches same ("?*.".toList ++ nd) (u ++ v) := by
  rw [subdomains_eq, matches_append]
  exact ⟨u, v, rfl, matches_some hu, hv⟩

theorem matches_of_anchored (hanchored : anchored (x ++ '.' :: nd) = true)
    (ht : Matches same (x ++ '.' :: nd) t) : Matches same ("?*.".toList ++ nd) t := by
  obtain ⟨u, v, rfl, hu, hv⟩ := matches_append.mp ht
  refine matches_subdomains ?_ hv
  rintro rfl
  have hstars : ∀ a ∈ x, decide (a = '*') = true := fun a ha =>
    decide_eq_true (eq_star_of_matches_nil hu a ha)
  unfold anchored at hanchored
  rw [dropWhile_append_of_pos hstars] at hanchored
  exact absurd hanchored (by simp)

theorem matches_of_subdomains (ht : Matches same ("?*.".toList ++ (x ++ '.' :: nd)) t) :
    Matches same ("?*.".toList ++ nd) t := by
  rw [subdomains_eq, ← cons_append, ← append_assoc, matches_append] at ht
  obtain ⟨u, v, rfl, hu, hv⟩ := ht
  refine matches_subdomains ?_ hv
  rintro rfl
  exact absurd (eq_star_of_matches_nil hu '?' (by simp)) (by decide)

theorem isSuffixOf_dot (h : ('.' :: normalizeDomain parent).isSuffixOf (normalizeDomain child) = true) :
    ∃ x, normalizeDomain child = x ++ '.' :: normalizeDomain parent := by
  obtain ⟨x, hx⟩ := isSuffixOf_iff_suffix.mp h
  exact ⟨x, hx.symm⟩

theorem isSubdomainOrEqual_cases (h : isSubdomainOrEqual child parent = true) :
    normalizeDomain child = normalizeDomain parent ∨
      ∃ x, normalizeDomain child = x ++ '.' :: normalizeDomain parent := by
  rcases of_decide_eq_true h with heq | hsuffix
  · exact .inl heq
  · exact .inr (isSuffixOf_dot hsuffix)

theorem isStrictSubdomain_cases (h : isStrictSubdomain child parent = true) :
    ∃ x, normalizeDomain child = x ++ '.' :: normalizeDomain parent :=
  isSuffixOf_dot (of_decide_eq_true h).2

theorem isSubdomainOrEqual_subdomains (h : isSubdomainOrEqual child parent = true)
    (ht : Matches same ("?*.".toList ++ normalizeDomain child) t) :
    Matches same ("?*.".toList ++ normalizeDomain parent) t := by
  rcases isSubdomainOrEqual_cases h with heq | ⟨x, hx⟩
  · rwa [← heq]
  · rw [hx] at ht
    exact matches_of_subdomains ht

theorem isSubdomainOrEqual_apex (h : isSubdomainOrEqual child parent = true)
    (hanchored : anchored (normalizeDomain child) = true)
    (ht : Matches same (normalizeDomain child) t) :
    Matches same (normalizeDomain parent) t ∨
      Matches same ("?*.".toList ++ normalizeDomain parent) t := by
  rcases isSubdomainOrEqual_cases h with heq | ⟨x, hx⟩
  · exact .inl (heq ▸ ht)
  · rw [hx] at ht hanchored
    exact .inr (matches_of_anchored hanchored ht)

/-- **A form that allows another matches what it matches.** -/
theorem DomainPattern.allows_candidates (h : m.allows e = true)
    (hanchored : anchored (normalizeDomain e.domain) = true)
    (hc : c ∈ e.candidates) (ht : Matches same c t) : ∃ c' ∈ m.candidates, Matches same c' t := by
  cases m with
  | exact d =>
    cases e with
    | exact d' =>
      rw [candidates, mem_singleton] at hc
      refine ⟨_, mem_singleton_self _, ?_⟩
      rwa [← of_decide_eq_true h, ← hc]
    | subdomainsOnly _ | apexAndSubdomains _ => cases h
  | subdomainsOnly d =>
    refine ⟨_, mem_singleton_self _, ?_⟩
    cases e with
    | exact d' =>
      obtain ⟨x, hx⟩ := isStrictSubdomain_cases h
      rw [candidates, mem_singleton] at hc
      rw [domain, hx] at hanchored
      rw [hc, hx] at ht
      exact matches_of_anchored hanchored ht
    | subdomainsOnly d' =>
      rw [candidates, mem_singleton] at hc
      rw [hc] at ht
      exact isSubdomainOrEqual_subdomains h ht
    | apexAndSubdomains d' =>
      obtain ⟨x, hx⟩ := isStrictSubdomain_cases h
      rw [domain, hx] at hanchored
      simp only [candidates, mem_cons, not_mem_nil, or_false] at hc
      rcases hc with rfl | rfl
      · rw [hx] at ht
        exact matches_of_anchored hanchored ht
      · rw [hx] at ht
        exact matches_of_subdomains ht
  | apexAndSubdomains d =>
    have hsub : Matches same ("?*.".toList ++ normalizeDomain d) t →
        ∃ c' ∈ (apexAndSubdomains d).candidates, Matches same c' t := fun h =>
      ⟨_, mem_cons_of_mem _ (mem_singleton_self _), h⟩
    have hany : Matches same (normalizeDomain d) t ∨ Matches same ("?*.".toList ++ normalizeDomain d) t →
        ∃ c' ∈ (apexAndSubdomains d).candidates, Matches same c' t := fun h =>
      h.elim (fun h => ⟨_, mem_cons_self, h⟩) hsub
    cases e with
    | exact d' =>
      rw [candidates, mem_singleton] at hc
      rw [hc] at ht
      exact hany (isSubdomainOrEqual_apex h hanchored ht)
    | subdomainsOnly d' =>
      rw [candidates, mem_singleton] at hc
      rw [hc] at ht
      exact hsub (isSubdomainOrEqual_subdomains h ht)
    | apexAndSubdomains d' =>
      simp only [candidates, mem_cons, not_mem_nil, or_false] at hc
      rcases hc with rfl | rfl
      · exact hany (isSubdomainOrEqual_apex h hanchored ht)
      · exact hsub (isSubdomainOrEqual_subdomains h ht)

end Forms

/-! ## Entries that are read alike -/

section Entries

variable (crates : Crates)

/-- The compiler makes of an entry the globs that the check has in mind, and they have no syntax of
`globset` in them beyond question marks and stars. -/
def readAlike (entry : Text) : Bool :=
  expandDomainPattern (normalizePattern crates entry) =
      (DomainPattern.parseForConstraints crates entry).candidates ∧
    (DomainPattern.parseForConstraints crates entry).candidates.all plain

variable {crates} {same : Char → Char → Bool} {managed entry t : Text}

theorem patternMatches_of_readAlike (hdoc : crates.Documented same)
    (h : readAlike crates entry = true) :
    PatternMatches crates entry t ↔
      ∃ c ∈ (DomainPattern.parseForConstraints crates entry).candidates, Matches same c t := by
  obtain ⟨hcandidates, hplain⟩ := of_decide_eq_true h
  unfold PatternMatches
  rw [hcandidates]
  refine exists_congr fun c => and_congr_right fun hc => ?_
  obtain ⟨glob, hglob, hmatch⟩ := hdoc.glob c (all_eq_true.mp hplain c hc)
  rw [← glob_iff, ← hmatch]
  constructor
  · rintro ⟨g, hg, ht⟩
    cases hglob.symm.trans hg
    exact ht
  · exact fun ht => ⟨glob, hglob, ht⟩

/-- **What an entry matches, a managed one matches that allows it.** -/
theorem patternMatches_of_allows (hdoc : crates.Documented same)
    (hmanaged : readAlike crates managed = true) (hentry : readAlike crates entry = true)
    (hanchored : anchored (normalizeDomain (DomainPattern.parseForConstraints crates entry).domain) = true)
    (hallows : (DomainPattern.parseForConstraints crates managed).allows
      (DomainPattern.parseForConstraints crates entry) = true)
    (ht : PatternMatches crates entry t) : PatternMatches crates managed t := by
  obtain ⟨c, hc, hmatch⟩ := (patternMatches_of_readAlike hdoc hentry).mp ht
  exact (patternMatches_of_readAlike hdoc hmanaged).mpr
    (DomainPattern.allows_candidates hallows hanchored hc hmatch)

end Entries

/-! ## Ordinary entries -/

section Texts

variable {t : Text}

theorem splitOnce_of_notMem {c : Char} {delimiter : Text} (h : c ∉ t) :
    splitOnce (c :: delimiter) t = none := by
  induction t with
  | nil => rfl
  | cons d t ih =>
    obtain ⟨hd, ht⟩ := not_or.mp (mt mem_cons.mpr h)
    rw [splitOnce, stripPrefix_of_ne hd, ih ht]
    rfl

theorem stripPrefix_of_anchored (h : anchored t = true) :
    stripPrefix "**.".toList t = none ∧ stripPrefix "*.".toList t = none := by
  have hnot : ∀ pre ∈ [['*', '*', '.'], ['*', '.']], stripPrefix pre t = none := by
    intro pre hpre
    refine if_neg fun hfront => ?_
    obtain ⟨rest, rfl⟩ := isPrefixOf_iff_prefix.mp hfront
    rcases mem_cons.mp hpre with rfl | hpre
    · simp [anchored] at h
    · rw [mem_singleton.mp hpre] at h
      simp [anchored] at h
  exact ⟨hnot _ mem_cons_self, hnot _ (mem_cons_of_mem _ mem_cons_self)⟩

theorem anchored_toAsciiLowercase (t : Text) : anchored (toAsciiLowercase t) = anchored t := by
  have hstar : (fun c => decide (c = '*')) ∘ asciiLowercase = fun c => decide (c = '*') :=
    funext fun c => decide_eq_decide.mpr (asciiLowercase_eq_iff (by decide))
  unfold anchored toAsciiLowercase
  rw [dropWhile_map, hstar, head?_map]
  cases (t.dropWhile fun c => decide (c = '*')).head? with
  | none => rfl
  | some c =>
    simp only [Option.map_some, ne_eq, Option.some.injEq, asciiLowercase_eq_iff (show NoLetter '.' by decide)]

end Texts

/-- A domain in which nothing is read as a bracket, a port, a scope or syntax of `globset` beyond
question marks and stars. -/
def spelled (domain : Text) : Bool :=
  domain.all fun c => ¬ isWhitespace c ∧ c ∉ "[]:%\x7b\x7d\\/,!".toList

/-- The wildcards in front of a domain, each with the form that it stands for. -/
def fronts : List (Text × (Text → DomainPattern)) :=
  [([], .exact), ("*.".toList, .subdomainsOnly), ("**.".toList, .apexAndSubdomains)]

/-- **An ordinary entry**: a wildcard in front or none, and a domain. The domain does not end in a dot,
nor do stars alone stand in front of its first one, and without a wildcard in it the host parser of
`url` takes it as it stands, but for the case of letters. -/
structure Ordinary (crates : Crates) (entry domain : Text) (front : Text × (Text → DomainPattern)) :
    Prop where
  known : front ∈ fronts
  trimmed : trim entry = front.1 ++ domain
  spelled : spelled domain = true
  nonempty : domain ≠ []
  last : domain.getLast? ≠ some '.'
  anchored : anchored domain = true
  parsed : '*' ∈ domain ∨ '?' ∈ domain ∨ crates.parseUrlHost domain = some (toAsciiLowercase domain)

namespace Ordinary

variable {crates : Crates} {entry domain : Text} {front : Text × (Text → DomainPattern)}
  {m : DomainPattern}

theorem noSpace (h : Ordinary crates entry domain front) : ∀ c ∈ domain, isWhitespace c = false :=
  fun c hc => by simpa using (of_decide_eq_true (all_eq_true.mp h.spelled c hc)).1

theorem notMem (h : Ordinary crates entry domain front) {c : Char}
    (hc : c ∈ "[]:%\x7b\x7d\\/,!".toList) : c ∉ domain :=
  fun hmem => (of_decide_eq_true (all_eq_true.mp h.spelled c hmem)).2 hc

theorem trimEndDots_lower (h : Ordinary crates entry domain front) :
    trimEndDots (toAsciiLowercase domain) = toAsciiLowercase domain := by
  unfold trimEndDots
  rw [rdropWhile_toAsciiLowercase fun c =>
    decide_eq_decide.mpr (asciiLowercase_eq_iff (d := '.') (by decide))]
  exact congrArg _ (trimEndDots_eq_self_iff.mpr h.last)

theorem normalizeDomain_lower (h : Ordinary crates entry domain front) :
    normalizeDomain (toAsciiLowercase domain) = toAsciiLowercase domain := by
  rw [normalizeDomain, h.trimEndDots_lower, toAsciiLowercase_toAsciiLowercase]

theorem normalizeHost (h : Ordinary crates entry domain front) :
    normalizeHost crates domain = toAsciiLowercase domain := by
  have hbracketed : bracketed domain = none := by
    unfold bracketed
    split
    next => exact absurd mem_cons_self (h.notMem (by decide))
    next => rfl
  have hpercent : '%' ∉ toAsciiLowercase domain :=
    mt (mem_toAsciiLowercase (by decide)).mp (h.notMem (by decide))
  have hcolon : domain.count ':' ≠ 1 := by
    rw [count_eq_zero.mpr (h.notMem (by decide))]
    decide
  unfold NetworkProxy.normalizeHost
  rw [trim_of_not_blank h.noSpace]
  dsimp only
  rw [hbracketed]
  dsimp only
  rw [if_neg hcolon, normalizeDnsHostOrIpLiteral, h.trimEndDots_lower]
  unfold normalizeIpLiteral
  split
  next => rfl
  next =>
    rw [show "%25".toList = '%' :: ['2', '5'] from by decide,
      show "%".toList = ['%'] from by decide, findSome?_cons, findSome?_cons,
      splitOnce_of_notMem hpercent, splitOnce_of_notMem hpercent]
    rfl

theorem parseDomainForConstraints (h : Ordinary crates entry domain front) :
    normalizeDomain (parseDomainForConstraints crates domain) = toAsciiLowercase domain := by
  have hhead : ¬ (domain.head? = some '[' ∧ domain.getLast? = some ']') := fun hhead =>
    h.notMem (by decide) (mem_of_mem_head? hhead.1)
  unfold NetworkProxy.parseDomainForConstraints
  rw [trim_of_not_blank h.noSpace, trimEndDots_eq_self_iff.mpr h.last, if_neg h.nonempty]
  dsimp only
  rw [if_neg hhead]
  split
  next => rw [normalizeDomain, trimEndDots_eq_self_iff.mpr h.last]
  next hplain =>
    rcases h.parsed with hstar | hmark | hparsed
    · exact absurd (.inl hstar) hplain
    · exact absurd (.inr (.inl hmark)) hplain
    · rw [hparsed, Option.getD_some, h.normalizeDomain_lower]

/-- What the three fronts are, and how they are taken off a domain. -/
theorem front_cases (h : Ordinary crates entry domain front) {d : Text}
    (hd : NetworkProxy.anchored d = true) :
    (front = ([], .exact) ∧ stripPrefix "**.".toList d = none ∧ stripPrefix "*.".toList d = none) ∨
    (front = ("*.".toList, .subdomainsOnly) ∧ stripPrefix "**.".toList ("*.".toList ++ d) = none ∧
      stripPrefix "*.".toList ("*.".toList ++ d) = some d) ∨
    front = ("**.".toList, .apexAndSubdomains) ∧
      stripPrefix "**.".toList ("**.".toList ++ d) = some d := by
  have hknown := h.known
  simp only [fronts, mem_cons, not_mem_nil, or_false] at hknown
  rcases hknown with rfl | rfl | rfl
  · exact .inl ⟨rfl, stripPrefix_of_anchored hd⟩
  · exact .inr (.inl ⟨rfl, rfl, stripPrefix_append _ _⟩)
  · exact .inr (.inr ⟨rfl, stripPrefix_append _ _⟩)

/-- The check reads an ordinary entry as its front says. -/
theorem parseForConstraints (h : Ordinary crates entry domain front) :
    DomainPattern.parseForConstraints crates entry =
      front.2 (NetworkProxy.parseDomainForConstraints crates domain) := by
  unfold DomainPattern.parseForConstraints
  rw [h.trimmed, if_neg (append_ne_nil_of_right_ne_nil _ h.nonempty)]
  rcases h.front_cases h.anchored with ⟨rfl, hstars, hstar⟩ | ⟨rfl, hstars, hstar⟩ | ⟨rfl, hstars⟩
  · simp only [nil_append, hstars, hstar]
  · simp only [hstars, hstar]
  · simp only [hstars]

/-- The compiler keeps the front, and puts the domain into lower case. -/
theorem normalizePattern (h : Ordinary crates entry domain front) :
    normalizePattern crates entry = front.1 ++ toAsciiLowercase domain := by
  unfold NetworkProxy.normalizePattern
  rw [h.trimmed]
  rcases h.front_cases h.anchored with ⟨rfl, hstars, hstar⟩ | ⟨rfl, hstars, hstar⟩ | ⟨rfl, hstars⟩
  · simp only [nil_append, hstars, hstar, h.normalizeHost]
    split
    next heq => rw [heq]; decide
    next => rfl
  · simp only [hstars, hstar, h.normalizeHost]
    exact if_neg (by simp)
  · simp only [hstars, h.normalizeHost]
    exact if_neg (by simp)

theorem parse (h : Ordinary crates entry domain front) :
    DomainPattern.parse (front.1 ++ toAsciiLowercase domain) = front.2 (toAsciiLowercase domain) := by
  have hlower : toAsciiLowercase domain ≠ [] := by simpa [toAsciiLowercase] using h.nonempty
  have htrim : trim (toAsciiLowercase domain) = toAsciiLowercase domain := by
    rw [trim_toAsciiLowercase, trim_of_not_blank h.noSpace]
  have hbuild : ∀ build, DomainPattern.parseDomain (toAsciiLowercase domain) build =
      build (toAsciiLowercase domain) := fun build => by
    rw [DomainPattern.parseDomain, htrim, if_neg hlower]
  have hfront : trim (front.1 ++ toAsciiLowercase domain) = front.1 ++ toAsciiLowercase domain := by
    have hend := @trimEnd_append _ front.1 hlower (trimEnd_of_trim htrim)
    rcases h.front_cases h.anchored with ⟨rfl, _⟩ | ⟨rfl, _⟩ | ⟨rfl, _⟩
    · exact htrim
    · exact trim_of_trimEnd (by decide) hend
    · exact trim_of_trimEnd (by decide) hend
  unfold DomainPattern.parse
  rw [hfront, if_neg (append_ne_nil_of_right_ne_nil _ hlower)]
  rcases h.front_cases ((anchored_toAsciiLowercase domain).trans h.anchored) with
    ⟨rfl, hstars, hstar⟩ | ⟨rfl, hstars, hstar⟩ | ⟨rfl, hstars⟩
  · simp only [nil_append, hstars, hstar]
  · simp only [hstars, hstar, hbuild]
  · simp only [hstars, hbuild]

/-- **An ordinary entry is read alike.** -/
theorem readAlike (h : Ordinary crates entry domain front) :
    readAlike crates entry = true := by
  have hplain : ∀ pre : Text, plain pre = true → plain (pre ++ toAsciiLowercase domain) = true := by
    intro pre hpre
    refine all_eq_true.mpr fun c hc => decide_eq_true fun hspecial => ?_
    rcases mem_append.mp hc with hc | hc
    · exact of_decide_eq_true (all_eq_true.mp hpre c hc) hspecial
    · have hnoLetter : "[]\x7b\x7d\\/,!".toList.all (NoLetter ·) = true := by decide
      have hmore : "[]\x7b\x7d\\/,!".toList <+ "[]:%\x7b\x7d\\/,!".toList := by decide
      have hc := (mem_toAsciiLowercase (of_decide_eq_true (all_eq_true.mp hnoLetter c hspecial))).mp hc
      exact h.notMem (hmore.subset hspecial) hc
  refine decide_eq_true ?_
  rw [h.normalizePattern, expandDomainPattern, h.parse, h.parseForConstraints]
  rcases h.front_cases h.anchored with ⟨rfl, _⟩ | ⟨rfl, _⟩ | ⟨rfl, _⟩
  all_goals
    simp only [DomainPattern.candidates, h.parseDomainForConstraints, true_and, all_cons, all_nil,
      Bool.and_true, Bool.and_eq_true]
  · exact hplain [] rfl
  · exact hplain _ (by decide)
  · exact ⟨hplain [] rfl, hplain _ (by decide)⟩

theorem domain_eq (h : Ordinary crates entry domain front) :
    normalizeDomain (DomainPattern.parseForConstraints crates entry).domain =
      toAsciiLowercase domain := by
  rw [h.parseForConstraints, ← h.parseDomainForConstraints]
  rcases h.front_cases h.anchored with ⟨rfl, _⟩ | ⟨rfl, _⟩ | ⟨rfl, _⟩ <;> rfl

end Ordinary

/-- An address in brackets that the host parser of `url` does not take without them. -/
def Bracketed (crates : Crates) (entry : Text) : Prop :=
  ∃ inner, trim entry = '[' :: (inner ++ [']']) ∧ '*' ∉ inner ∧ '?' ∉ inner ∧ '%' ∉ inner ∧
    crates.parseUrlHost inner = none

/-- The check reads such an address as the empty domain. -/
theorem Bracketed.parseForConstraints {crates : Crates} {entry : Text} (h : Bracketed crates entry) :
    DomainPattern.parseForConstraints crates entry = .exact [] := by
  obtain ⟨inner, htrim, hstar, hmark, hpercent, hparsed⟩ := h
  have hagain : trim ('[' :: (inner ++ [']'])) = '[' :: (inner ++ [']']) :=
    trim_of_trimEnd (by decide) (rdropWhile_concat_neg _ ('[' :: inner) _ (by decide))
  have hdots : trimEndDots ('[' :: (inner ++ [']'])) = '[' :: (inner ++ [']']) :=
    rdropWhile_concat_neg _ ('[' :: inner) _ (by decide)
  unfold DomainPattern.parseForConstraints
  rw [htrim, if_neg (cons_ne_nil _ _), show "**.".toList = '*' :: ['*', '.'] from by decide,
    show "*.".toList = '*' :: ['.'] from by decide, stripPrefix_of_ne (by decide),
    stripPrefix_of_ne (by decide)]
  dsimp only
  unfold NetworkProxy.parseDomainForConstraints
  have hlast : ('[' :: (inner ++ [']'])).getLast? = some ']' := getLast?_concat (l := '[' :: inner)
  rw [hagain, hdots, if_neg (cons_ne_nil _ _)]
  simp [hlast, hstar, hmark, hpercent, hparsed]

/-! ## Containment -/

section Narrows

variable {Hook Ca Hooks Mitm : Type} (outside : Outside Hook Ca Hooks Mitm)
  (config : NetworkProxyConfig Hook Ca) (constraints : NetworkProxyConstraints)
  (state : ConfigState Hook Ca Hooks Mitm)

variable {outside config constraints state} {same : Char → Char → Bool} {executorOs : Platform}

section

variable {managed : List Text} {entry : Text}
  (hvalid : validatePolicyAgainstConstraints outside config constraints = .ok ())
  (hmanaged : constraints.allowedDomains = some managed) (hentry : entry ∈ config.allowedDomains.getD [])
include hvalid hmanaged hentry

end

/-- A managed entry that allows an ordinary one matches what it matches. -/
theorem Ordinary.within {crates : Crates} {m entry domain t : Text}
    {front : Text × (Text → DomainPattern)} (h : Ordinary crates entry domain front)
    (hdoc : crates.Documented same)
    (hm : (∃ domain front, Ordinary crates m domain front) ∨ Bracketed crates m)
    (hallows : (DomainPattern.parseForConstraints crates m).allows
      (DomainPattern.parseForConstraints crates entry) = true)
    (ht : PatternMatches crates entry t) : PatternMatches crates m t := by
  rcases hm with ⟨_, _, hm⟩ | hm
  · refine patternMatches_of_allows hdoc hm.readAlike h.readAlike ?_ hallows ht
    rw [h.domain_eq, anchored_toAsciiLowercase, h.anchored]
  · -- the empty domain allows only itself
    rw [hm.parseForConstraints] at hallows
    have hempty : toAsciiLowercase domain = [] := by
      rw [← h.domain_eq]
      cases hform : DomainPattern.parseForConstraints crates entry with
      | exact d =>
        rw [hform] at hallows
        exact of_decide_eq_true hallows
      | subdomainsOnly d | apexAndSubdomains d =>
        rw [hform] at hallows
        cases hallows
    exact absurd (map_eq_nil_iff.mp hempty) h.nonempty

/-- A rendering of the crates: hosts with a colon do not parse, texts with two are addresses, and
globs are matched without regard to the case of letters. -/
def sketch : Outside Unit Unit Unit Unit where
  isIpAddr t := 2 ≤ t.count ':'
  parseUrlHost t := if ':' ∈ t then none else some (toAsciiLowercase t)
  buildGlob candidate :=
    some (Glob.glob (fun a b => asciiLowercase a == asciiLowercase b) candidate)
  buildGlobSet globs := some fun t => globs.any (· t)
  validateMitmHookConfig _ := .ok ()
  compileMitmHooks _ := .ok ()
  mitmState _ _ := .ok ()
  socketPathIsAbsolute _ path := path.head? = some '/'
  debug texts := texts.flatten

/-- A proxy that is switched on and allows some domains. -/
def allowing (domains : List Text) : NetworkProxyConfig Unit Unit where
  enabled := true
  allowUpstreamProxy := false
  dangerouslyAllowNonLoopbackProxy := false
  dangerouslyAllowAllUnixSockets := none
  mode := .full
  domains := some (domains.map (⟨·, .allow⟩))
  unixSockets := none
  allowLocalBinding := none
  mitm := false
  mitmCa := none
  credentialBroker := false
  mitmHooks := []

end Narrows

end NovumAgent.NetworkProxy
