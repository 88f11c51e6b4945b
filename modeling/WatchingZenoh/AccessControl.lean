import WatchingZenoh.KeyexprMatch
import WatchingZenoh.Library.Utf8
import WatchingZenoh.NetworkGraph

/-! The access-control policy: rules that narrow themselves by peer, link, user and certificate, and
the verdict on a request. A deny rule that applies wins, then the default, then an allow rule. An
unknown protocol or an unknown set of interfaces is read as matching every rule. For deny rules that
is the cautious reading; for allow rules under a default deny it is not, and the last result says for
which policies and requests it does no harm. -/

namespace WatchingZenoh.AccessControl

open KeyexprMatch NetworkGraph

inductive Permission
  | allow
  | deny
  deriving DecidableEq, Repr

inductive AclFlow
  | ingress
  | egress
  deriving DecidableEq, Repr

inductive AclMessage
  | put
  | delete
  | declareSubscriber
  | query
  | declareQueryable
  | reply
  | livelinessToken
  | declareLivelinessSubscriber
  | livelinessQuery
  deriving DecidableEq, Repr

inductive InterceptorLink
  | tcp
  | udp
  | tls
  | quic
  | serial
  | unixpipe
  | unixsockStream
  | vsock
  | ws
  deriving DecidableEq, Repr

inductive LinkKind
  | tcp
  | udp
  | udpReliable
  | tls
  | quic
  | quicDatagram
  | serial
  | unixpipe
  | unixsockStream
  | vsock
  | ws
  deriving DecidableEq, Repr

def LinkKind.interceptorProtocol : LinkKind → InterceptorLink
  | .tcp => .tcp
  | .udp | .udpReliable => .udp
  | .tls => .tls
  | .quic | .quicDatagram => .quic
  | .serial => .serial
  | .unixpipe => .unixpipe
  | .unixsockStream => .unixsockStream
  | .vsock => .vsock
  | .ws => .ws

/-- What is known of the link a message arrived on. `interfaces = some []` is a link on no NIC,
`none` one whose NICs could not be determined. -/
structure LinkSubject where
  kind : Option LinkKind
  interfaces : Option (List Bytes)
  certCommonName : Option Bytes
  deriving DecidableEq, Repr

namespace LinkSubject

def unknown : LinkSubject := ⟨none, none, none⟩

def protocol (s : LinkSubject) : Option InterceptorLink := s.kind.map LinkKind.interceptorProtocol

def matchesProtocols (s : LinkSubject) (protocols : List InterceptorLink) : Bool :=
  match s.protocol with
  | some p => protocols.contains p
  | none => true

def matchesInterfaces (s : LinkSubject) (interfaces : List Bytes) : Bool :=
  match s.interfaces with
  | some names => names.any interfaces.contains
  | none => true

def optMatchesProtocols (subject : Option LinkSubject) (protocols : List InterceptorLink) : Bool :=
  protocols.isEmpty || (subject.map (·.matchesProtocols protocols)).getD true

def optMatchesInterfaces (subject : Option LinkSubject) (interfaces : List Bytes) : Bool :=
  interfaces.isEmpty || (subject.map (·.matchesInterfaces interfaces)).getD true

end LinkSubject

/-- The characters `str::trim` strips. -/
def whiteSpace (c : Char) : Bool :=
  let n := c.toNat
  (0x09 ≤ n && n ≤ 0x0D) || (0x2000 ≤ n && n ≤ 0x200A) ||
    [0x20, 0x85, 0xA0, 0x1680, 0x2028, 0x2029, 0x202F, 0x205F, 0x3000].contains n

def Blank (text : Bytes) : Prop :=
  ∃ cs : List Char, text = cs.flatMap String.utf8EncodeChar ∧ ∀ c ∈ cs, whiteSpace c = true

/-- A user a rule can name: `new` refuses a blank name. -/
structure AclUsername where
  asStr : Bytes
  named : ¬ Blank asStr

/-- A certificate name a rule can name, of a type of its own: the two are never compared. -/
structure AclCertCommonName where
  asStr : Bytes
  named : ¬ Blank asStr

theorem not_blank {b : UInt8} {text : Bytes} (hb : Utf8.ascii b)
    (hspace : whiteSpace (Char.ofNat b.toNat) = false) : ¬ Blank (b :: text) := by
  rintro ⟨cs, htext, hblank⟩
  rcases cs with _ | ⟨c, cs⟩
  · cases htext
  have hpos : 0 < (String.utf8EncodeChar c).length := by
    rw [String.length_utf8EncodeChar]
    exact c.utf8Size_pos
  have hhead : (String.utf8EncodeChar c)[0] = b := by
    have h := congrArg (·[0]?) htext
    simp only [List.flatMap_cons, List.getElem?_append_left hpos, List.getElem?_eq_getElem hpos] at h
    exact (Option.some_inj.mp h).symm
  obtain ⟨-, hone⟩ := Utf8.utf8EncodeChar_of_ascii hpos (hhead ▸ hb)
  have hsize : c.utf8Size = 1 := by
    rw [← String.length_utf8EncodeChar, hone, List.length_singleton]
  simp only [String.utf8EncodeChar_eq_singleton hsize, List.getElem_cons_zero] at hhead
  have hc : c.toNat = b.toNat := by
    have hle : c.toNat ≤ 127 := UInt32.le_iff_toNat_le.mp (Char.utf8Size_eq_one_iff.mp hsize)
    rw [← hhead, UInt32.toNat_toUInt8]
    exact (Nat.mod_eq_of_lt (show c.toNat < 2 ^ 8 by omega)).symm
  have h := hblank c (by simp)
  rw [← hc, Char.ofNat_toNat, h] at hspace
  cases hspace

inductive SubjectSelector
  | any
  | zid (zid : Zid)

def SubjectSelector.matches : SubjectSelector → Option Zid → Bool
  | .any, _ => true
  | .zid z, subject => subject == some z

structure AclRule where
  subject : SubjectSelector
  keyExprs : List Bytes
  messages : List AclMessage
  flow : AclFlow
  linkProtocols : List InterceptorLink
  interfaces : List Bytes
  usernames : List AclUsername
  certCommonNames : List AclCertCommonName
  permission : Permission

/-- Whether an axis that lists names governs a face: an empty list governs every face, another one
only a face that has one of the names. -/
def governsName (names : List Bytes) (name : Option Bytes) : Bool :=
  if names.isEmpty then true
  else
    match name with
    | some name => names.any (· == name)
    | none => false

/-- A target with an empty chunk is included by no rule. -/
def keyexprIncludesTarget (superset : Bytes) (targetChunks : List Chunk) : Bool :=
  if !targetChunksWellFormed targetChunks then false
  else keyexprIncludesPatterns (Text.chunks superset) targetChunks

namespace AclRule

def governsLink (rule : AclRule) (subject : Option LinkSubject) : Bool :=
  LinkSubject.optMatchesProtocols subject rule.linkProtocols &&
    LinkSubject.optMatchesInterfaces subject rule.interfaces

def governsUsername (rule : AclRule) (username : Option Bytes) : Bool :=
  governsName (rule.usernames.map (·.asStr)) username

def governsCertCommonName (rule : AclRule) (certCommonName : Option Bytes) : Bool :=
  governsName (rule.certCommonNames.map (·.asStr)) certCommonName

/-- The closure `applies` of `decision`. -/
def applies (rule : AclRule) (subject : Option Zid) (flow : AclFlow) (action : AclMessage)
    (targetChunks : List Chunk) (link : Option LinkSubject) (username : Option Bytes) : Bool :=
  rule.flow == flow && rule.subject.matches subject && rule.governsLink link &&
    rule.governsUsername username &&
    rule.governsCertCommonName (link.bind (·.certCommonName)) &&
    rule.messages.contains action &&
    rule.keyExprs.any (keyexprIncludesTarget · targetChunks)

end AclRule

structure AclConfig where
  defaultPermission : Permission
  rules : List AclRule

/-- The compiled policy; the flag is computed once from the rules. -/
structure AclPolicy where
  config : AclConfig
  readsUsername : Bool
  readsUsername_eq : readsUsername = config.rules.any fun r => !r.usernames.isEmpty

namespace AclPolicy

def new (config : AclConfig) : AclPolicy := ⟨config, _, rfl⟩

def decision (policy : AclPolicy) (subject : Option Zid) (flow : AclFlow) (action : AclMessage)
    (keyexpr : Bytes) (link : Option LinkSubject) (username : Option Bytes) : Permission :=
  if policy.config.rules.isEmpty then policy.config.defaultPermission
  else
    let applies := fun rule : AclRule =>
      rule.applies subject flow action (Text.chunks keyexpr) link username
    if policy.config.rules.any fun r => r.permission == .deny && applies r then .deny
    else if policy.config.defaultPermission == .allow then .allow
    else if policy.config.rules.any fun r => r.permission == .allow && applies r then .allow
    else .deny

end AclPolicy

section Decision

variable {policy : AclPolicy} {subject : Option Zid} {flow : AclFlow} {action : AclMessage}
  {keyexpr : Bytes} {link : Option LinkSubject} {username : Option Bytes}

theorem decision_eq_allow_iff :
    policy.decision subject flow action keyexpr link username = .allow ↔
      (∀ r ∈ policy.config.rules, r.permission = .deny →
        r.applies subject flow action (Text.chunks keyexpr) link username = false) ∧
      (policy.config.defaultPermission = .allow ∨ ∃ r ∈ policy.config.rules,
        r.permission = .allow ∧
          r.applies subject flow action (Text.chunks keyexpr) link username = true) := by
  unfold AclPolicy.decision
  cases hrules : policy.config.rules with
  | nil => simp
  | cons r rules =>
    rw [← hrules, if_neg (by simp [hrules])]
    by_cases hdeny : (policy.config.rules.any fun r => r.permission == .deny &&
        r.applies subject flow action (Text.chunks keyexpr) link username) = true
    · obtain ⟨d, hd, happ⟩ := List.any_eq_true.mp hdeny
      simp only [Bool.and_eq_true, beq_iff_eq] at happ
      rw [if_pos hdeny]
      refine iff_of_false (by decide) fun h => ?_
      simp [h.1 d hd happ.1] at happ
    · have hno : ∀ r ∈ policy.config.rules, r.permission = .deny →
          r.applies subject flow action (Text.chunks keyexpr) link username = false := by
        intro r hr hperm
        by_contra h
        exact hdeny (List.any_eq_true.mpr ⟨r, hr, by simp [hperm, h]⟩)
      rw [if_neg hdeny, and_iff_right hno]
      cases hdef : policy.config.defaultPermission with
      | allow => simp
      | deny => simp

theorem decision_of_not_readsUsername (hreads : policy.readsUsername = false)
    (other : Option Bytes) :
    policy.decision subject flow action keyexpr link username =
      policy.decision subject flow action keyexpr link other := by
  have hnone : ∀ r ∈ policy.config.rules, r.usernames = [] := by
    intro r hr
    have h := policy.readsUsername_eq
    rw [hreads] at h
    simpa using List.any_eq_false.mp h.symm r hr
  have happ : ∀ r ∈ policy.config.rules,
      r.applies subject flow action (Text.chunks keyexpr) link username =
        r.applies subject flow action (Text.chunks keyexpr) link other := by
    intro r hr
    simp [AclRule.applies, AclRule.governsUsername, governsName, hnone r hr]
  have hiff : policy.decision subject flow action keyexpr link username = .allow ↔
      policy.decision subject flow action keyexpr link other = .allow := by
    rw [decision_eq_allow_iff, decision_eq_allow_iff]
    refine and_congr (forall₂_congr fun r hr => by rw [happ r hr])
      (or_congr_right (exists_congr fun r => and_congr_right fun hr => by rw [happ r hr]))
  cases h : policy.decision subject flow action keyexpr link other <;>
    cases h' : policy.decision subject flow action keyexpr link username <;> simp_all

end Decision

/-- A rule that names a user and a certificate governs a face that has both, and no face without the
user. -/
example :
    let rule : AclRule := ⟨.any, [[0x61]], [.put], .ingress, [], [],
      [⟨[0x75], not_blank (by decide) (by decide)⟩], [⟨[0x63], not_blank (by decide) (by decide)⟩],
      .allow⟩
    let policy := AclPolicy.new ⟨.deny, [rule]⟩
    let link : LinkSubject := ⟨none, none, some [0x63]⟩
    policy.decision none .ingress .put [0x61] (some link) (some [0x75]) = .allow ∧
      policy.decision none .ingress .put [0x61] (some link) none = .deny := by
  decide +kernel

/-- What is known of the kind and of the interfaces of a link that may be absent. -/
def knownKind (u : Option LinkSubject) : Option LinkKind := u.bind (·.kind)

def knownInterfaces (u : Option LinkSubject) : Option (List Bytes) := u.bind (·.interfaces)

/-- A link subject with the unknown protocol and interfaces of `u` filled in. -/
structure Completes (u : Option LinkSubject) (c : LinkSubject) : Prop where
  kind : ∃ k, c.kind = some k ∧ ∀ k', knownKind u = some k' → k = k'
  interfaces : ∃ names, c.interfaces = some names ∧
    ∀ names', knownInterfaces u = some names' → names = names'
  certCommonName : c.certCommonName = u.bind (·.certCommonName)

section Completion

variable {u : Option LinkSubject} {c : LinkSubject}

theorem optMatchesProtocols_completes {k : LinkKind} (hc : c.kind = some k)
    (hk : ∀ k', knownKind u = some k' → k = k') (protocols : List InterceptorLink) :
    LinkSubject.optMatchesProtocols (some c) protocols = true ↔
      LinkSubject.optMatchesProtocols u protocols = true ∧
        (knownKind u = none → protocols = [] ∨ k.interceptorProtocol ∈ protocols) := by
  have hcomp : LinkSubject.optMatchesProtocols (some c) protocols = true ↔
      protocols = [] ∨ k.interceptorProtocol ∈ protocols := by
    simp [LinkSubject.optMatchesProtocols, LinkSubject.matchesProtocols, LinkSubject.protocol, hc]
  rw [hcomp]
  rcases u with _ | ⟨_ | k', names, cert⟩
  · simp [LinkSubject.optMatchesProtocols, knownKind]
  · simp [LinkSubject.optMatchesProtocols, LinkSubject.matchesProtocols, LinkSubject.protocol,
      knownKind]
  · obtain rfl := hk k' rfl
    simp [LinkSubject.optMatchesProtocols, LinkSubject.matchesProtocols, LinkSubject.protocol,
      knownKind]

theorem optMatchesInterfaces_completes {names : List Bytes} (hc : c.interfaces = some names)
    (hn : ∀ names', knownInterfaces u = some names' → names = names') (listed : List Bytes) :
    LinkSubject.optMatchesInterfaces (some c) listed = true ↔
      LinkSubject.optMatchesInterfaces u listed = true ∧
        (knownInterfaces u = none → listed = [] ∨ ∃ n ∈ names, n ∈ listed) := by
  have hcomp : LinkSubject.optMatchesInterfaces (some c) listed = true ↔
      listed = [] ∨ ∃ n ∈ names, n ∈ listed := by
    simp [LinkSubject.optMatchesInterfaces, LinkSubject.matchesInterfaces, hc]
  rw [hcomp]
  rcases u with _ | ⟨k, _ | names', cert⟩
  · simp [LinkSubject.optMatchesInterfaces, knownInterfaces]
  · simp [LinkSubject.optMatchesInterfaces, LinkSubject.matchesInterfaces, knownInterfaces]
  · obtain rfl := hn names' rfl
    simp [LinkSubject.optMatchesInterfaces, LinkSubject.matchesInterfaces, knownInterfaces]

variable {subject : Option Zid} {flow : AclFlow} {action : AclMessage} {chunks : List Chunk}
  {username : Option Bytes}

/-- A rule applies to a completion where it applies to the link before and lists what was
filled in. -/
theorem applies_completes {k : LinkKind} {names : List Bytes} (hk : c.kind = some k)
    (hkind : ∀ k', knownKind u = some k' → k = k') (hn : c.interfaces = some names)
    (hnames : ∀ names', knownInterfaces u = some names' → names = names')
    (hcert : c.certCommonName = u.bind (·.certCommonName)) (rule : AclRule) :
    rule.applies subject flow action chunks (some c) username = true ↔
      rule.applies subject flow action chunks u username = true ∧
        (knownKind u = none →
          rule.linkProtocols = [] ∨ k.interceptorProtocol ∈ rule.linkProtocols) ∧
        (knownInterfaces u = none → rule.interfaces = [] ∨ ∃ n ∈ names, n ∈ rule.interfaces) := by
  have hproto := optMatchesProtocols_completes hk hkind rule.linkProtocols
  have hifs := optMatchesInterfaces_completes hn hnames rule.interfaces
  simp only [AclRule.applies, AclRule.governsLink, Bool.and_eq_true, hproto, hifs,
    Option.bind_some, hcert]
  tauto

theorem applies_of_completes (h : Completes u c) {rule : AclRule}
    (happ : rule.applies subject flow action chunks (some c) username = true) :
    rule.applies subject flow action chunks u username = true := by
  obtain ⟨k, hk, hkind⟩ := h.kind
  obtain ⟨names, hn, hnames⟩ := h.interfaces
  exact ((applies_completes hk hkind hn hnames h.certCommonName rule).mp happ).1

end Completion

section FailClosed

variable (policy : AclPolicy) (subject : Option Zid) (flow : AclFlow) (action : AclMessage)
  (keyexpr : Bytes) (username : Option Bytes) (u : Option LinkSubject)

/-- What an unknown link is allowed, every link it may turn out to be is allowed. -/
def FailsClosed : Prop :=
  policy.decision subject flow action keyexpr u username = .allow →
    ∀ c, Completes u c → policy.decision subject flow action keyexpr (some c) username = .allow

/-- For every kind the link may turn out to be, an allow rule that applies to it already does not
rest on what is unknown: it does not narrow by an unknown protocol or lists the one of that kind, and
it does not narrow by unknown interfaces. -/
def Granted : Prop :=
  ∀ k : LinkKind, (∀ k', knownKind u = some k' → k = k') →
    ∃ r ∈ policy.config.rules, r.permission = .allow ∧
      r.applies subject flow action (Text.chunks keyexpr) u username = true ∧
      (knownKind u = none → r.linkProtocols = [] ∨ k.interceptorProtocol ∈ r.linkProtocols) ∧
      (knownInterfaces u = none → r.interfaces = [])

def AppliesWith (permission : Permission) : Prop :=
  ∃ r ∈ policy.config.rules, r.permission = permission ∧
    r.applies subject flow action (Text.chunks keyexpr) u username = true

variable {policy subject flow action keyexpr username u}

theorem decision_of_granted
    (hallow : policy.decision subject flow action keyexpr u username = .allow)
    (hgrant : policy.config.defaultPermission = .allow ∨
      Granted policy subject flow action keyexpr username u) {c : LinkSubject}
    (hc : Completes u c) :
    policy.decision subject flow action keyexpr (some c) username = .allow := by
  obtain ⟨hdeny, -⟩ := decision_eq_allow_iff.mp hallow
  refine decision_eq_allow_iff.mpr ⟨fun r hr hperm => ?_, hgrant.imp_right fun hgrant => ?_⟩
  · by_contra happ
    have := applies_of_completes hc (by simpa using happ)
    simp [hdeny r hr hperm] at this
  · obtain ⟨k, hk, hkind⟩ := hc.kind
    obtain ⟨names, hn, hnames⟩ := hc.interfaces
    obtain ⟨r, hr, hperm, happ, hproto, hifs⟩ := hgrant k hkind
    exact ⟨r, hr, hperm, (applies_completes hk hkind hn hnames hc.certCommonName r).mpr
      ⟨happ, hproto, fun hnone => .inl (hifs hnone)⟩⟩

/-- The completion of an unknown link that meets the fewest rules: of a given kind and on no NIC. -/
def onNoInterface (u : Option LinkSubject) (k : LinkKind) : LinkSubject :=
  ⟨some k, some ((knownInterfaces u).getD []), u.bind (·.certCommonName)⟩

theorem completes_onNoInterface {k : LinkKind} (hk : ∀ k', knownKind u = some k' → k = k') :
    Completes u (onNoInterface u k) :=
  ⟨⟨k, rfl, hk⟩, ⟨_, rfl, fun names' h => by simp [h]⟩, rfl⟩

theorem granted_of_failsClosed (hdefault : policy.config.defaultPermission = .deny)
    (hall : ∀ c, Completes u c →
      policy.decision subject flow action keyexpr (some c) username = .allow) :
    Granted policy subject flow action keyexpr username u := by
  intro k hk
  have hc := completes_onNoInterface hk
  obtain ⟨-, hallow⟩ := decision_eq_allow_iff.mp (hall _ hc)
  obtain ⟨r, hr, hperm, happ⟩ := hallow.resolve_left (by simp [hdefault])
  obtain ⟨happ, hproto, hifs⟩ := (applies_completes rfl hk rfl
    (fun names' h => by simp [h]) rfl r).mp happ
  refine ⟨r, hr, hperm, happ, hproto, fun hnone => ?_⟩
  simpa [hnone] using hifs hnone

/-- An unknown link fails closed exactly where the default allows, a deny rule applies, or the allow
rules that apply (if any) do not rest on what is unknown. -/
theorem failsClosed_iff (policy : AclPolicy) (subject : Option Zid) (flow : AclFlow)
    (action : AclMessage) (keyexpr : Bytes) (username : Option Bytes) (u : Option LinkSubject) :
    FailsClosed policy subject flow action keyexpr username u ↔
      policy.config.defaultPermission = .allow ∨
        AppliesWith policy subject flow action keyexpr username u .deny ∨
        (AppliesWith policy subject flow action keyexpr username u .allow →
          Granted policy subject flow action keyexpr username u) := by
  constructor
  · intro hclosed
    by_cases hdefault : policy.config.defaultPermission = .allow
    · exact .inl hdefault
    · refine .inr (or_iff_not_imp_left.mpr fun hdeny happ => ?_)
      refine granted_of_failsClosed ?_ (hclosed (decision_eq_allow_iff.mpr ⟨?_, .inr happ⟩))
      · cases h : policy.config.defaultPermission with
        | allow => exact absurd h hdefault
        | deny => rfl
      · intro r hr hperm
        by_contra h
        exact hdeny ⟨r, hr, hperm, by simpa using h⟩
  · intro h hallow c hc
    obtain ⟨hdeny, hgranted⟩ := decision_eq_allow_iff.mp hallow
    rcases h with hdefault | ⟨r, hr, hperm, happ⟩ | hgrant
    · exact decision_of_granted hallow (.inl hdefault) hc
    · simp [hdeny r hr hperm] at happ
    · exact decision_of_granted hallow (hgranted.imp_right hgrant) hc

/-- Under a default deny, an allow rule for `tls` links admits a put from a link nothing is known
of, and not from the `tcp` link it may be. -/
theorem not_failsClosed_tls :
    ¬ ∀ (policy : AclPolicy) (subject : Option Zid) (flow : AclFlow) (action : AclMessage)
      (keyexpr : Bytes) (username : Option Bytes) (u : Option LinkSubject),
      knownKind u = none ∨ knownInterfaces u = none →
        FailsClosed policy subject flow action keyexpr username u := by
  intro h
  let rule : AclRule := ⟨.any, [[0x61]], [.put], .ingress, [.tls], [], [], [], .allow⟩
  have hclosed := h (.new ⟨.deny, [rule]⟩) none .ingress .put [0x61] none none (.inl rfl)
  have hallow := hclosed (by decide +kernel) ⟨some .tcp, some [], none⟩
    ⟨⟨.tcp, rfl, by simp [knownKind]⟩, ⟨[], rfl, by simp [knownInterfaces]⟩, rfl⟩
  revert hallow
  decide +kernel

end FailClosed

end WatchingZenoh.AccessControl
