import NovumAgent.NetworkProxy.CredentialBroker.Providers

/-!
# The credentials of a request

A request's headers hold stand-ins for credentials. For those credentials that belong to the request's environment
and are bound to its host the stand-ins are exchanged, unless two of them claim one header.

Pairs of credentials are compared on the way, by provider and by real value. That this tells nothing of a
credential which is not for the request is because selection is a function of the credentials that are
(`selectCredentials_filter`): a value that is compared is one of theirs.
-/

namespace NovumAgent.NetworkProxy.CredentialBroker

open List

/-- What is read of a `CredentialRecord` when a request is sent. -/
structure CredentialRecord where
  provider : BrokeredCredentialProvider
  hostBinding : CredentialHostBinding
  additionalHostBindings : List CredentialHostBinding
  environmentId : Option Text
  realValue : Text
  dummyValue : Text

namespace CredentialRecord

def hostBindings (credential : CredentialRecord) : List CredentialHostBinding :=
  credential.hostBinding :: credential.additionalHostBindings

def belongsToEnvironment (credential : CredentialRecord) (environmentId : Option Text) : Bool :=
  credential.environmentId = environmentId

end CredentialRecord

/-- What is read of the `CredentialBrokerState` when a request is sent. -/
structure CredentialBrokerState where
  enabled : Bool
  credentials : List CredentialRecord

/-- A translated header, with the credential that it is of. -/
structure Translated where
  credential : CredentialRecord
  name : HeaderName
  value : HeaderValue

section

variable (wire : Wire)

/-! ## Translation -/

/-- A credential and a header are among those found before. -/
def isKnown (found : List Translated) (credential : CredentialRecord) (name : HeaderName)
    (value : HeaderValue) : Bool :=
  found.any fun existing =>
    existing.credential.provider.sameProvider credential.provider &&
      existing.credential.realValue = credential.realValue && existing.name = name &&
      existing.value = value

/-- The headers of one pair of credentials. -/
def pushTranslations (headers : HeaderMap) (credential : CredentialRecord) (found : List Translated)
    (candidate : CredentialRecord) : List Translated :=
  (credential.provider.translateRequestHeaders wire headers candidate.dummyValue
    credential.realValue).foldl (fun found (name, value) =>
      if isKnown found credential name value then found else found ++ [⟨credential, name, value⟩]) found

/-- The first loop of `select_credentials`. -/
def translatedMatches (headers : HeaderMap) (host : Text) (request : Option Url)
    (credentials : List CredentialRecord) (environmentId : Option Text) : List Translated :=
  (credentials.filter fun credential =>
    credential.belongsToEnvironment environmentId &&
      credential.hostBindings.any (·.matchesRequest host request)).foldl (fun found credential =>
    (credentials.filter fun candidate =>
      candidate.belongsToEnvironment environmentId &&
        candidate.provider.sameProvider credential.provider &&
        candidate.realValue = credential.realValue &&
        candidate.hostBindings.any (·.matchesRequest host request)).foldl
      (pushTranslations wire headers credential) found) []

/-! ## Conflicts -/

/-- The user and the password of a header with basic credentials. -/
def decodeBasic (header : HeaderValue) : Option (Bytes × Bytes) :=
  match (wire.toStr header).bind (splitOnce [' ']) with
  | none => none
  | some (scheme, value) =>
    if sameIgnoringCase scheme "basic".toList then
      (wire.decode64 (Text.trim value)).bind splitColon
    else none

/-- `merge_basic_auth_fields`: only the user of one and only the password of the other were exchanged. -/
def mergeBasicAuthFields (original left right : HeaderValue) : Option HeaderValue :=
  match decodeBasic wire original, decodeBasic wire left, decodeBasic wire right with
  | some original, some left, some right =>
    let encode (user password : Bytes) : Option HeaderValue :=
      wire.fromStr ("Basic ".toList ++ wire.encode64 (user ++ [58] ++ password))
    if left.1 ≠ original.1 ∧ left.2 = original.2 ∧ right.1 = original.1 ∧ right.2 ≠ original.2 then
      encode left.1 right.2
    else if right.1 ≠ original.1 ∧ right.2 = original.2 ∧ left.1 = original.1 ∧ left.2 ≠ original.2 then
      encode right.1 left.2
    else none
  | _, _, _ => none

def swapRemove {α : Type} (l : List α) (i : Nat) : List α :=
  match l.getLast? with
  | some last => (l.set i last).dropLast
  | none => []

/-- What the second loop of `select_credentials` has: the headers selected, and those that are ambiguous. -/
structure Selection where
  selected : List Translated
  ambiguousHeaders : List HeaderName

/-- The body of the second loop of `select_credentials`. -/
def Selection.step (headers : HeaderMap) (selection : Selection) (found : Translated) : Selection :=
  if found.name ∈ selection.ambiguousHeaders then selection
  else
    match selection.selected.findIdx? (·.name = found.name) with
    | none => { selection with selected := selection.selected ++ [found] }
    | some index =>
      match selection.selected[index]? with
      | none => selection
      | some existing =>
        if !found.credential.provider.sameProvider existing.credential.provider ||
            found.credential.realValue ≠ existing.credential.realValue ||
            found.value ≠ existing.value then
          match (if found.name = authorization then
              (headers.get authorization).bind fun original =>
                mergeBasicAuthFields wire original existing.value found.value
            else none) with
          | some merged =>
            -- the record is kept for the check of the raw path, which is made for configured providers
            let credential :=
              if found.credential.provider.isConfigured then found.credential else existing.credential
            { selection with
              selected := selection.selected.set index ⟨credential, existing.name, merged⟩ }
          | none =>
            ⟨swapRemove selection.selected index, selection.ambiguousHeaders ++ [found.name]⟩
        else selection

def selectCredentials (headers : HeaderMap) (host : Text) (request : Option Url)
    (credentials : List CredentialRecord) (environmentId : Option Text) : List Translated :=
  ((translatedMatches wire headers host request credentials environmentId).foldl
    (Selection.step wire headers) ⟨[], []⟩).selected

/-! ## Requests -/

/-- What a destination is: a URL that does not parse, a URL, or a host. -/
def requestOf (destination : Text) : Option (Option Url) :=
  if (splitOnce "://".toList destination).isSome then (wire.parseUrl destination).map some else some none

/-- The host of a request. -/
def hostOf (destination : Text) (request : Option Url) : Text :=
  normalizeHost wire.toCrates ((request.bind (·.hostStr)).getD destination)

/-- A configured provider's header is for a path that is written as it is read, and that is safe. -/
def rawPathAllowed (destination : Text) (selected : List Translated) (request : Option Url) : Bool :=
  match request with
  | none => true
  | some request =>
    if selected.any (·.credential.provider.isConfigured) then
      match wire.parseUriPath destination with
      | none => false
      | some rawPath => rawPath = request.path && isSafeForAuthorization rawPath
    else true

def injectRequestHeadersForEnvironment (state : CredentialBrokerState) (destination : Text)
    (headers : HeaderMap) (environmentId : Option Text) : HeaderMap :=
  match requestOf wire destination with
  | none => headers
  | some request =>
    if !state.enabled then headers
    else
      let selected := selectCredentials wire headers (hostOf wire destination request) request
        state.credentials environmentId
      if !rawPathAllowed wire destination selected request then headers
      else
        selected.foldl (fun headers found =>
          found.credential.provider.insertRequestHeader headers found.name found.value) headers

/-- The credential belongs to the environment, and one of its bindings matches the request. -/
def CredentialRecord.isFor (credential : CredentialRecord) (host : Text) (request : Option Url)
    (environmentId : Option Text) : Bool :=
  credential.belongsToEnvironment environmentId &&
    credential.hostBindings.any (·.matchesRequest host request)

/-! ## What a request can tell -/

variable {wire} {headers : HeaderMap} {host : Text} {request : Option Url} {environmentId : Option Text}
  {credentials : List CredentialRecord}

/-- **Selection reads the credentials that are for the request**, and no others. -/
theorem selectCredentials_filter : selectCredentials wire headers host request
        (credentials.filter fun credential => credential.isFor host request environmentId) environmentId =
      selectCredentials wire headers host request credentials environmentId := by
  -- what the inner loop asks of a candidate includes that it is for the request
  have hinner : ∀ credential : CredentialRecord,
      (credentials.filter fun c => c.isFor host request environmentId).filter (fun candidate =>
        candidate.belongsToEnvironment environmentId &&
          candidate.provider.sameProvider credential.provider &&
          candidate.realValue = credential.realValue &&
          candidate.hostBindings.any (·.matchesRequest host request)) =
      credentials.filter (fun candidate =>
        candidate.belongsToEnvironment environmentId &&
          candidate.provider.sameProvider credential.provider &&
          candidate.realValue = credential.realValue &&
          candidate.hostBindings.any (·.matchesRequest host request)) := by
    intro credential
    rw [filter_filter]
    apply filter_congr
    intro candidate _
    unfold CredentialRecord.isFor
    cases candidate.belongsToEnvironment environmentId with
    | false => rfl
    | true =>
      cases candidate.hostBindings.any (·.matchesRequest host request) with
      | false => rw [Bool.and_false, Bool.false_and]
      | true => rw [Bool.and_true, Bool.and_true, Bool.and_true]
  have houter : (credentials.filter fun c => c.isFor host request environmentId).filter
      (fun credential => credential.belongsToEnvironment environmentId &&
        credential.hostBindings.any (·.matchesRequest host request)) =
      credentials.filter fun c => c.isFor host request environmentId := by
    rw [filter_filter]
    apply filter_congr
    intro candidate _
    exact Bool.and_self _
  unfold selectCredentials translatedMatches
  rw [houter]
  simp only [hinner]
  rfl

theorem filter_set {α : Type} {p : α → Bool} {l : List α} {i : Nat} {old new : α}
    (hold : l[i]? = some old) (hpold : p old = false) (hpnew : p new = false) :
    (l.set i new).filter p = l.filter p := by
  induction l generalizing i with
  | nil => rfl
  | cons a l ih =>
    cases i with
    | zero =>
      cases hold
      rw [set_cons_zero, filter_cons, filter_cons, hpold, hpnew,
        if_neg Bool.false_ne_true, if_neg Bool.false_ne_true]
    | succ i =>
      rw [set_cons_succ, filter_cons, filter_cons, ih hold]

/-- **The secret of a credential that is not for a request has no influence on it.** -/
theorem foreign_secret_unseen (wire : Wire) (state : CredentialBrokerState) (index : Nat)
    (credential : CredentialRecord) (hcredential : state.credentials[index]? = some credential)
    (secret : Text) (headers : HeaderMap) (destination : Text) (environmentId : Option Text)
    (hforeign : ∀ request, requestOf wire destination = some request →
      credential.belongsToEnvironment environmentId = false ∨ ∀ binding ∈ credential.hostBindings,
          binding.matchesRequest (hostOf wire destination request) request = false) :
    injectRequestHeadersForEnvironment wire
        { state with
          credentials := state.credentials.set index { credential with realValue := secret } }
        destination headers environmentId =
      injectRequestHeadersForEnvironment wire state destination headers environmentId := by
  unfold injectRequestHeadersForEnvironment
  cases hrequest : requestOf wire destination with
  | none => rfl
  | some request =>
    have hnot : credential.isFor (hostOf wire destination request) request environmentId = false := by
      unfold CredentialRecord.isFor
      obtain henvironment | hbindings := hforeign request hrequest
      · rw [henvironment, Bool.false_and]
      · rw [any_eq_false.mpr fun binding hmem => Bool.eq_false_iff.mp (hbindings binding hmem),
          Bool.and_false]
    -- the test does not read the secret
    have hnot' : ({ credential with realValue := secret } : CredentialRecord).isFor
        (hostOf wire destination request) request environmentId = false := hnot
    have hselect : selectCredentials wire headers (hostOf wire destination request) request
        (state.credentials.set index { credential with realValue := secret }) environmentId =
          selectCredentials wire headers (hostOf wire destination request) request state.credentials
            environmentId := by
      rw [← selectCredentials_filter, filter_set hcredential hnot hnot', selectCredentials_filter]
    dsimp only
    rw [hselect]

/-- Headers that hold texts as they are, and no URLs. -/
def plainWire : Wire where
  isIpAddr _ := false
  parseUrlHost _ := none
  buildGlob _ := none
  buildGlobSet _ := none
  fromStr text := some (Utf8.encode text)
  toStr value := some (Utf8.fromUtf8Lossy value)
  encode64 bytes := Utf8.fromUtf8Lossy bytes
  decode64 text := some (Utf8.encode text)
  parseUrl _ := none
  parseUriPath text := some text

/-- A token for one host. -/
def hostToken : CredentialRecord where
  provider := .builtin .github
  hostBinding := .exactHost ['g']
  additionalHostBindings := []
  environmentId := none
  realValue := ['s']
  dummyValue := ['d']

/-- Headers with a stand-in for it. -/
def standInHeaders : HeaderMap := (∅ : HeaderMap).put authorization (Utf8.encode "token d".toList)

/-- The token for `g` is exchanged in a request to `g`, and its value has no influence on one to `h`. -/
theorem foreign_secret_unseen_hostToken :
    (injectRequestHeadersForEnvironment plainWire ⟨true, [hostToken]⟩ ['g'] standInHeaders none).get
        authorization = some (Utf8.encode "token s".toList) ∧
      injectRequestHeadersForEnvironment plainWire ⟨true, [{ hostToken with realValue := ['t'] }]⟩ ['h']
          standInHeaders none =
        injectRequestHeadersForEnvironment plainWire ⟨true, [hostToken]⟩ ['h'] standInHeaders none := by
  refine ⟨by decide +kernel, ?_⟩
  apply foreign_secret_unseen plainWire ⟨true, [hostToken]⟩ 0 hostToken rfl ['t']
  intro request hrequest
  cases hrequest
  exact .inr (by decide +kernel)

end

end NovumAgent.NetworkProxy.CredentialBroker
