import Mathlib.Data.List.GetD
import Mathlib.Data.UInt

/-!
# The DHCP client

`dhcp_init_ifc` waits for an offer, requests the address offered, and configures the interface when
the request is acknowledged. It decodes every packet into the one record `info` before it looks
whether the packet is a reply to its own message, and it builds retransmitted requests and the
configuration after the last timeout from that record. So a packet that is no reply still reaches
the next request, unless it decodes to what `info` holds already.
-/
namespace SystemCore.Libnetutils

/-- The bytes of a `dhcp_msg`, as many as were received or are sent. -/
abbrev DhcpMsg := List UInt8

def DHCP_MSG_FIXED_SIZE : Nat := 236

def OP_BOOTREQUEST : UInt8 := 1
def OP_BOOTREPLY : UInt8 := 2
def HTYPE_ETHER : UInt8 := 1

def OPT_PAD : UInt8 := 0
def OPT_SUBNET_MASK : UInt8 := 1
def OPT_GATEWAY : UInt8 := 3
def OPT_DNS : UInt8 := 6
def OPT_BROADCAST_ADDR : UInt8 := 28
def OPT_REQUESTED_IP : UInt8 := 50
def OPT_LEASE_TIME : UInt8 := 51
def OPT_MESSAGE_TYPE : UInt8 := 53
def OPT_SERVER_ID : UInt8 := 54
def OPT_PARAMETER_LIST : UInt8 := 55
def OPT_END : UInt8 := 255

def DHCPDISCOVER : UInt8 := 1
def DHCPOFFER : UInt8 := 2
def DHCPREQUEST : UInt8 := 3
def DHCPACK : UInt8 := 5
def DHCPNAK : UInt8 := 6

/-- `OPT_COOKIE1` to `OPT_COOKIE4`. -/
def cookie : List UInt8 := [0x63, 0x82, 0x53, 0x63]

def TIMEOUT_INITIAL : Nat := 4000
def TIMEOUT_MAX : Nat := 32000

def byteAt (b : List UInt8) (i : Nat) : UInt8 := b.getD i 0

/-- A `uint32_t` as the host reads it. -/
def load32 (b : List UInt8) (i : Nat) : UInt32 :=
  (byteAt b i).toUInt32 + 256 * (byteAt b (i + 1)).toUInt32 +
    65536 * (byteAt b (i + 2)).toUInt32 + 16777216 * (byteAt b (i + 3)).toUInt32

def store32 (x : UInt32) : List UInt8 :=
  [x.toUInt8, (x >>> 8).toUInt8, (x >>> 16).toUInt8, (x >>> 24).toUInt8]

def ntohl (x : UInt32) : UInt32 := load32 (store32 x).reverse 0

/-! ## Messages -/

section Messages

variable (hwaddr : Vector UInt8 6)

def initDhcpMsg (type : UInt8) (xid : UInt32) : DhcpMsg :=
  [OP_BOOTREQUEST, HTYPE_ETHER, 6, 0] ++ store32 xid ++ [0, 0, 0x80, 0] ++ List.replicate 16 0 ++
    hwaddr.toList ++ List.replicate 202 0 ++ cookie ++ [OPT_MESSAGE_TYPE, 1, type]

def parameterList : List UInt8 :=
  [OPT_PARAMETER_LIST, 4, OPT_SUBNET_MASK, OPT_GATEWAY, OPT_DNS, OPT_BROADCAST_ADDR]

def initDhcpDiscoverMsg (xid : UInt32) : DhcpMsg :=
  initDhcpMsg hwaddr DHCPDISCOVER xid ++ (parameterList ++ [OPT_END])

def initDhcpRequestMsg (xid ipaddr serveraddr : UInt32) : DhcpMsg :=
  initDhcpMsg hwaddr DHCPREQUEST xid ++ (parameterList ++ [OPT_REQUESTED_IP, 4] ++ store32 ipaddr ++
    [OPT_SERVER_ID, 4] ++ store32 serveraddr ++ [OPT_END])

end Messages

structure DhcpInfo where
  type : UInt32 := 0
  ipaddr : UInt32 := 0
  gateway : UInt32 := 0
  prefixLength : UInt32 := 0
  dns1 : UInt32 := 0
  dns2 : UInt32 := 0
  serveraddr : UInt32 := 0
  lease : UInt32 := 0
  deriving DecidableEq, Repr

/-- The loop of `ipv4NetmaskToPrefixLength`, over the bits that are left. -/
def leadingOnes : (bits : Nat) → (m : UInt32) → UInt32
  | 0, _ => 0
  | bits + 1, m => if m &&& (0x80000000 : UInt32) ≠ 0 then leadingOnes bits (m <<< 1) + 1 else 0

def ipv4NetmaskToPrefixLength (mask : UInt32) : UInt32 := leadingOnes 32 (ntohl mask)

/-- One option of `decode_dhcp_msg`, with its value at the head of `x`. -/
def decodeOption (opt : UInt8) (optlen : Nat) (x : List UInt8) (info : DhcpInfo) : DhcpInfo :=
  if opt = OPT_SUBNET_MASK then
    if 4 ≤ optlen then { info with prefixLength := ipv4NetmaskToPrefixLength (load32 x 0) } else info
  else if opt = OPT_GATEWAY then
    if 4 ≤ optlen then { info with gateway := load32 x 0 } else info
  else if opt = OPT_DNS then
    let info := if 4 ≤ optlen then { info with dns1 := load32 x 0 } else info
    if 8 ≤ optlen then { info with dns2 := load32 x 4 } else info
  else if opt = OPT_LEASE_TIME then
    if 4 ≤ optlen then { info with lease := ntohl (load32 x 0) } else info
  else if opt = OPT_SERVER_ID then
    if 4 ≤ optlen then { info with serveraddr := load32 x 0 } else info
  else if opt = OPT_MESSAGE_TYPE then { info with type := (byteAt x 0).toUInt32 }
  else info

/-- The loop of `decode_dhcp_msg`: it goes on while more than two bytes are left. -/
def decodeOptions : (x : List UInt8) → (info : DhcpInfo) → DhcpInfo
  | opt :: optlen :: b :: rest, info =>
    if opt = OPT_PAD then decodeOptions (optlen :: b :: rest) info
    else if opt = OPT_END then info
    else if (b :: rest).length < optlen.toNat then info
    else decodeOptions ((b :: rest).drop optlen.toNat) (decodeOption opt optlen.toNat (b :: rest) info)
  | _, info => info
  termination_by x => x.length

/-- `decode_dhcp_msg`: what it leaves in `info`, which it clears first. -/
def decodeDhcpMsg (msg : DhcpMsg) : DhcpInfo :=
  if msg.length < DHCP_MSG_FIXED_SIZE + 4 then {}
  else if (msg.drop DHCP_MSG_FIXED_SIZE).take 4 ≠ cookie then {}
  else { decodeOptions (msg.drop (DHCP_MSG_FIXED_SIZE + 4)) {} with ipaddr := load32 msg 16 }

def isValidReply (msg reply : DhcpMsg) : Bool :=
  if reply.length < DHCP_MSG_FIXED_SIZE then false
  else if byteAt reply 0 ≠ OP_BOOTREPLY then false
  else if load32 reply 4 ≠ load32 msg 4 then false
  else if byteAt reply 1 ≠ byteAt msg 1 then false
  else if byteAt reply 2 ≠ byteAt msg 2 then false
  else if (msg.drop 28).take (byteAt msg 2).toNat ≠ (reply.drop 28).take (byteAt msg 2).toNat then
    false
  else true

/-! ## The client -/

inductive Phase where
  | selecting
  | requesting
  deriving DecidableEq, Repr

/-- The variables of `dhcp_init_ifc`. -/
structure Client where
  state : Phase
  timeout : Nat
  xid : UInt32
  info : DhcpInfo
  discoverMsg : DhcpMsg
  requestMsg : DhcpMsg
  deriving DecidableEq, Repr

inductive Errno where
  | eagain
  | eintr
  | enetdown
  | enxio
  | other
  deriving DecidableEq, Repr

/-- What `poll` and `receive_packet` come back with. -/
inductive Event where
  | timeout
  | pollFailed (errno : Errno)
  | receiveFailed (errno : Option Errno)
  | packet (reply : DhcpMsg)
  deriving DecidableEq, Repr

/-- What the client does to the outside. -/
inductive Output where
  | send (msg : DhcpMsg)
  | configure (info : DhcpInfo)
  | fail
  deriving DecidableEq, Repr

def Client.awaited (s : Client) : DhcpMsg :=
  match s.state with
  | .selecting => s.discoverMsg
  | .requesting => s.requestMsg

/-- The packet passes `is_valid_reply`. -/
def Client.Trusts (s : Client) (reply : DhcpMsg) : Prop := isValidReply s.awaited reply = true

instance (s : Client) (reply : DhcpMsg) : Decidable (s.Trusts reply) :=
  inferInstanceAs (Decidable (_ = _))

/-- The packet that an event brings, with the client that it finds. -/
def visit (s : Client) : Event → List (Client × DhcpMsg)
  | .packet reply => [(s, reply)]
  | _ => []

def Untrusted (s : Client) : Event → Prop
  | .packet reply => ¬ s.Trusts reply
  | _ => False

instance (s : Client) : (e : Event) → Decidable (Untrusted s e)
  | .packet reply => inferInstanceAs (Decidable (¬ s.Trusts reply))
  | .timeout => inferInstanceAs (Decidable False)
  | .pollFailed _ => inferInstanceAs (Decidable False)
  | .receiveFailed _ => inferInstanceAs (Decidable False)

section Run

variable (hwaddr : Vector UInt8 6)

/-- From the label `transmit` to the end of the turn. -/
def transmit (s : Client) : Client × Output :=
  match s.state with
  | .selecting =>
    let msg := initDhcpDiscoverMsg hwaddr s.xid
    ({ s with discoverMsg := msg }, .send msg)
  | .requesting =>
    let msg := initDhcpRequestMsg hwaddr s.xid s.info.ipaddr s.info.serveraddr
    ({ s with requestMsg := msg }, .send msg)

/-- One turn of the loop; `none` where the function returns. -/
def step (s : Client) : Event → Option Client × List Output
  | .timeout =>
    if TIMEOUT_MAX ≤ s.timeout then
      (none, if s.info.type = DHCPOFFER.toUInt32 then [.configure s.info] else [.fail])
    else
      let (s, o) := transmit hwaddr { s with timeout := s.timeout * 2 }
      (some s, [o])
  | .pollFailed errno =>
    if errno = .eagain ∨ errno = .eintr then (some s, []) else (none, [.fail])
  | .receiveFailed errno =>
    if errno = some .enetdown ∨ errno = some .enxio then (none, [.fail]) else (some s, [])
  | .packet reply =>
    let s := { s with info := decodeDhcpMsg reply }
    if ¬ s.Trusts reply then (some s, [])
    else match s.state with
      | .selecting =>
        if s.info.type = DHCPOFFER.toUInt32 then
          let (s, o) := transmit hwaddr
            { s with state := .requesting, timeout := TIMEOUT_INITIAL, xid := s.xid + 1 }
          (some s, [o])
        else (some s, [])
      | .requesting =>
        if s.info.type = DHCPACK.toUInt32 then (none, [.configure s.info])
        else if s.info.type = DHCPNAK.toUInt32 then (none, [.fail])
        else (some s, [])

/-- What the loop does from `s` on. -/
def run (s : Client) : List Event → List Output
  | [] => []
  | e :: es =>
    (step hwaddr s e).2 ++ match (step hwaddr s e).1 with
      | some s' => run s' es
      | none => []

/-- The client before the loop, after the first message; only the type of `info` is set. -/
def start (xid : UInt32) (garbage : DhcpInfo) (discoverMsg requestMsg : DhcpMsg) : Client × Output :=
  transmit hwaddr
    ⟨.selecting, TIMEOUT_INITIAL, xid, { garbage with type := 0 }, discoverMsg, requestMsg⟩

def visits (s : Client) : List Event → List (Client × DhcpMsg)
  | [] => []
  | e :: es =>
    visit s e ++ match (step hwaddr s e).1 with
      | some s' => visits s' es
      | none => []

/-- The events of a run without the packets that fail the check. -/
def trusted (s : Client) : List Event → List Event
  | [] => []
  | e :: es =>
    (if Untrusted s e then [] else [e]) ++ match (step hwaddr s e).1 with
      | some s' => trusted s' es
      | none => []

end Run

/-- The message type that `init_dhcp_msg` writes. -/
def messageType (msg : DhcpMsg) : UInt8 := byteAt msg 242

/-! ## What a run should rest on -/

def Offers (s : Client) (reply : DhcpMsg) : Prop :=
  s.state = .selecting ∧ isValidReply s.discoverMsg reply = true ∧
    (decodeDhcpMsg reply).type = DHCPOFFER.toUInt32

/-- What the client does rests on packets of `seen` that pass the check. -/
def Rests (hwaddr : Vector UInt8 6) (seen : List (Client × DhcpMsg)) : Output → Prop
  | .send msg => messageType msg = DHCPREQUEST → ∃ v ∈ seen, Offers v.1 v.2 ∧ ∃ xid,
      msg = initDhcpRequestMsg hwaddr xid (decodeDhcpMsg v.2).ipaddr (decodeDhcpMsg v.2).serveraddr
  | .configure info => ∃ v ∈ seen, v.1.Trusts v.2 ∧ info = decodeDhcpMsg v.2
  | .fail => True

/-- What keeps a packet from reaching anything that it should not: while the client waits for an
offer, a packet that fails the check is none. Once it has requested an address, a packet decodes to
what `info` holds, or passes the check and ends the exchange or names the same address and server. -/
def Harmless (s : Client) (reply : DhcpMsg) : Prop :=
  (s.state = .selecting →
    s.Trusts reply ∨ (decodeDhcpMsg reply).type ≠ DHCPOFFER.toUInt32) ∧
  (s.state = .requesting →
    decodeDhcpMsg reply = s.info ∨ s.Trusts reply ∧
      ((decodeDhcpMsg reply).type = DHCPACK.toUInt32 ∨
        (decodeDhcpMsg reply).type = DHCPNAK.toUInt32 ∨
        (decodeDhcpMsg reply).ipaddr = s.info.ipaddr ∧
          (decodeDhcpMsg reply).serveraddr = s.info.serveraddr))

instance (s : Client) (reply : DhcpMsg) : Decidable (Harmless s reply) :=
  inferInstanceAs (Decidable (_ ∧ _))

/-! ## One turn -/

section Turn

variable {hwaddr : Vector UInt8 6} {s s' t : Client} {reply : DhcpMsg} {e : Event}
  {seen seen' : List (Client × DhcpMsg)} {o : Output}

@[simp] theorem transmit_state : (transmit hwaddr s).1.state = s.state := by
  unfold transmit
  split <;> rfl

@[simp] theorem transmit_info : (transmit hwaddr s).1.info = s.info := by
  unfold transmit
  split <;> rfl

theorem step_timeout :
    step hwaddr s .timeout =
      if TIMEOUT_MAX ≤ s.timeout then
        (none, if s.info.type = DHCPOFFER.toUInt32 then [.configure s.info] else [.fail])
      else
        let r := transmit hwaddr { s with timeout := s.timeout * 2 }
        (some r.1, [r.2]) :=
  rfl

theorem step_packet_of_untrusted (h : ¬ s.Trusts reply) :
    step hwaddr s (.packet reply) = (some { s with info := decodeDhcpMsg reply }, []) :=
  if_pos h

theorem step_packet_of_trusts (h : s.Trusts reply) :
    step hwaddr s (.packet reply) =
      match s.state with
      | .selecting =>
        if (decodeDhcpMsg reply).type = DHCPOFFER.toUInt32 then
          let r := transmit hwaddr
            { s with
              state := .requesting
              timeout := TIMEOUT_INITIAL
              xid := s.xid + 1
              info := decodeDhcpMsg reply }
          (some r.1, [r.2])
        else (some { s with info := decodeDhcpMsg reply }, [])
      | .requesting =>
        if (decodeDhcpMsg reply).type = DHCPACK.toUInt32 then
          (none, [.configure (decodeDhcpMsg reply)])
        else if (decodeDhcpMsg reply).type = DHCPNAK.toUInt32 then (none, [.fail])
        else (some { s with info := decodeDhcpMsg reply }, []) :=
  if_neg (not_not.mpr h)

/-! ### Where the record comes from -/

/-- A requested address is one that was offered, and an offer in `info` passed the check. -/
structure Grounded (seen : List (Client × DhcpMsg)) (s : Client) : Prop where
  offered : s.state = .requesting → ∃ v ∈ seen, Offers v.1 v.2 ∧
    (decodeDhcpMsg v.2).ipaddr = s.info.ipaddr ∧ (decodeDhcpMsg v.2).serveraddr = s.info.serveraddr
  decoded : s.info.type = DHCPOFFER.toUInt32 →
    ∃ v ∈ seen, v.1.Trusts v.2 ∧ s.info = decodeDhcpMsg v.2

theorem Rests.mono (h : Rests hwaddr seen o) (hsub : seen ⊆ seen') : Rests hwaddr seen' o := by
  cases o with
  | send msg =>
    intro hm
    obtain ⟨v, hv, hoffer⟩ := h hm
    exact ⟨v, hsub hv, hoffer⟩
  | configure info =>
    obtain ⟨v, hv, htrust⟩ := h
    exact ⟨v, hsub hv, htrust⟩
  | fail => trivial

theorem Rests.fail : Rests hwaddr seen .fail := trivial

theorem messageType_discover (hwaddr : Vector UInt8 6) (xid : UInt32) :
    messageType (initDhcpDiscoverMsg hwaddr xid) = DHCPDISCOVER := by
  have hat : ∀ (fixed rest : List UInt8), fixed.length = 240 →
      byteAt (fixed ++ [OPT_MESSAGE_TYPE, 1, DHCPDISCOVER] ++ rest) 242 = DHCPDISCOVER := by
    intro fixed rest hlen
    rw [byteAt, List.append_assoc, List.getD_append_right _ _ _ _ (by omega), hlen]
    rfl
  apply hat
  simp only [store32, cookie, List.length_append, List.length_cons, List.length_nil,
    List.length_replicate, Vector.length_toList]

/-- What a turn does, and the client that it leaves, rest on packets that pass the check. -/
def TurnRests (hwaddr : Vector UInt8 6) (seen : List (Client × DhcpMsg))
    (r : Option Client × List Output) : Prop :=
  (∀ o ∈ r.2, Rests hwaddr seen o) ∧ ∀ s', r.1 = some s' → Grounded seen s'

theorem TurnRests.ended (h : Rests hwaddr seen o) : TurnRests hwaddr seen (none, [o]) :=
  ⟨by simpa using h, by simp⟩

section Grounded

variable (h : Grounded seen s)

include h

theorem Grounded.mono (hsub : seen ⊆ seen') : Grounded seen' s := by
  refine ⟨fun hs => ?_, fun ht => ?_⟩
  · obtain ⟨v, hv, hoffer⟩ := h.offered hs
    exact ⟨v, hsub hv, hoffer⟩
  · obtain ⟨v, hv, htrust⟩ := h.decoded ht
    exact ⟨v, hsub hv, htrust⟩

theorem Grounded.transmit :
    Rests hwaddr seen (transmit hwaddr s).2 ∧ Grounded seen (transmit hwaddr s).1 := by
  refine ⟨?_, ⟨by simpa using h.offered, by simpa using h.decoded⟩⟩
  unfold Libnetutils.transmit
  split
  · intro hm
    rw [messageType_discover] at hm
    exact absurd hm (by decide)
  · rename_i hs
    intro _
    obtain ⟨v, hv, hoffer, hip, hserver⟩ := h.offered hs
    exact ⟨v, hv, hoffer, s.xid, by rw [hip, hserver]⟩

/-- What a packet leaves in `info`, as long as it does not end the exchange. -/
theorem Grounded.decode (hharmless : Harmless s reply)
    (hgoes : s.state = .requesting → s.Trusts reply →
      (decodeDhcpMsg reply).type ≠ DHCPACK.toUInt32 ∧
        (decodeDhcpMsg reply).type ≠ DHCPNAK.toUInt32) :
    Grounded (seen ++ [(s, reply)]) { s with info := decodeDhcpMsg reply } := by
  have hself : (s, reply) ∈ seen ++ [(s, reply)] := by simp
  have hkeep := h.mono (List.subset_append_left seen [(s, reply)])
  cases hs : s.state with
  | selecting =>
    refine ⟨fun hr => ?_, fun ht => ?_⟩
    · cases hr
    · exact ⟨(s, reply), hself, (hharmless.1 hs).resolve_right (not_not.mpr ht), rfl⟩
  | requesting =>
    rcases hharmless.2 hs with hsame | ⟨htrust, hack | hnak | ⟨hip, hserver⟩⟩
    · rw [hsame, ← hs]
      exact hkeep
    · exact absurd hack (hgoes hs htrust).1
    · exact absurd hnak (hgoes hs htrust).2
    · refine ⟨fun _ => ?_, fun _ => ⟨(s, reply), hself, htrust, rfl⟩⟩
      obtain ⟨v, hv, hoffer, hvip, hvserver⟩ := hkeep.offered hs
      exact ⟨v, hv, hoffer, hvip.trans hip.symm, hvserver.trans hserver.symm⟩

theorem TurnRests.going : TurnRests hwaddr seen (some s, []) :=
  ⟨by simp, fun _ hs => Option.some.inj hs ▸ h⟩

theorem TurnRests.sent :
    TurnRests hwaddr seen (some (Libnetutils.transmit hwaddr s).1, [(Libnetutils.transmit hwaddr s).2]) :=
  ⟨by simpa using h.transmit.1, fun _ hs => Option.some.inj hs ▸ h.transmit.2⟩

theorem Grounded.timeout : TurnRests hwaddr seen (step hwaddr s .timeout) := by
  rw [step_timeout]
  split
  · split
    · rename_i ht
      have hrests : Rests hwaddr seen (.configure s.info) := h.decoded ht
      exact .ended hrests
    · exact .ended .fail
  · exact .sent ⟨h.offered, h.decoded⟩

theorem Grounded.packet (hharmless : Harmless s reply) :
    TurnRests hwaddr (seen ++ [(s, reply)]) (step hwaddr s (.packet reply)) := by
  have hself : (s, reply) ∈ seen ++ [(s, reply)] := by simp
  by_cases htrust : s.Trusts reply
  swap
  · rw [step_packet_of_untrusted htrust]
    exact .going (h.decode hharmless fun _ ht => absurd ht htrust)
  rw [step_packet_of_trusts htrust]
  split
  · rename_i hs
    have hgoes : s.state = .requesting → s.Trusts reply →
        (decodeDhcpMsg reply).type ≠ DHCPACK.toUInt32 ∧
          (decodeDhcpMsg reply).type ≠ DHCPNAK.toUInt32 := by
      intro hr
      rw [hs] at hr
      cases hr
    split
    · rename_i hoffer
      -- the offer itself is what the request rests on
      have hvalid : isValidReply s.discoverMsg reply = true := by
        simpa only [Client.Trusts, Client.awaited, hs] using htrust
      refine .sent ⟨fun _ => ?_, fun _ => ?_⟩
      · exact ⟨(s, reply), hself, ⟨hs, hvalid, hoffer⟩, rfl, rfl⟩
      · exact ⟨(s, reply), hself, htrust, rfl⟩
    · exact .going (h.decode hharmless hgoes)
  · split
    · have hrests : Rests hwaddr (seen ++ [(s, reply)]) (.configure (decodeDhcpMsg reply)) :=
        ⟨(s, reply), hself, htrust, rfl⟩
      exact .ended hrests
    · split
      · exact .ended .fail
      · rename_i hack hnak
        exact .going (h.decode hharmless fun _ _ => ⟨hack, hnak⟩)

theorem Grounded.step (hwaddr : Vector UInt8 6) (e : Event)
    (hharmless : ∀ v ∈ visit s e, Harmless v.1 v.2) :
    TurnRests hwaddr (seen ++ visit s e) (step hwaddr s e) := by
  cases e with
  | timeout =>
    rw [show visit s .timeout = [] from rfl, List.append_nil]
    exact h.timeout
  | pollFailed errno =>
    rw [show visit s (.pollFailed errno) = [] from rfl, List.append_nil, Libnetutils.step]
    split
    · exact .going h
    · exact .ended .fail
  | receiveFailed errno =>
    rw [show visit s (.receiveFailed errno) = [] from rfl, List.append_nil, Libnetutils.step]
    split
    · exact .ended .fail
    · exact .going h
  | packet reply => exact h.packet (hharmless (s, reply) (by simp [visit]))

end Grounded

/-! ### What a packet that fails the check changes -/

/-- No offer is held while the client waits for one. -/
def Idle (s : Client) : Prop := s.state = .selecting → s.info.type ≠ DHCPOFFER.toUInt32

/-- Two clients that differ at most in what `info` holds while they wait for an offer. -/
structure Alike (s t : Client) : Prop where
  same : t = { s with info := t.info }
  requested : s.state = .requesting → t.info = s.info
  idle_left : Idle s
  idle_right : Idle t

theorem Alike.refl (h : Idle s) : Alike s s := ⟨rfl, fun _ => rfl, h, h⟩

theorem Alike.state_eq (h : Alike s t) : t.state = s.state := by rw [h.same]

theorem Alike.eq_of_requesting (h : Alike s t) (hs : s.state = .requesting) : t = s := by
  rw [h.same, h.requested hs]

theorem idle_of_requesting (h : s.state = .requesting) : Idle s := by
  intro hs
  rw [h] at hs
  cases hs

/-- Nothing of the old `info` is left after a packet. -/
theorem Alike.step_packet (h : Alike s t) :
    step hwaddr t (.packet reply) = step hwaddr s (.packet reply) := by
  rw [h.same]
  rfl

theorem idle_of_trusted_packet (htrust : s.Trusts reply)
    (h : (step hwaddr s (.packet reply)).1 = some s') : Idle s' := by
  rw [step_packet_of_trusts htrust] at h
  split at h
  · split at h
    · rw [← Option.some.inj h]
      exact idle_of_requesting transmit_state
    · rename_i hoffer
      rw [← Option.some.inj h]
      exact fun _ => hoffer
  · rename_i hs
    split_ifs at h
    rw [← Option.some.inj h]
    exact idle_of_requesting hs

/-- A packet that fails the check leaves the client as it was, as far as can be seen. -/
theorem Alike.untrusted (h : Alike s t) (htrust : ¬ s.Trusts reply) (hharmless : Harmless s reply) :
    Alike { s with info := decodeDhcpMsg reply } t := by
  cases hs : s.state with
  | selecting =>
    refine ⟨hs ▸ h.same, fun hr => ?_, fun _ => (hharmless.1 hs).resolve_left htrust, h.idle_right⟩
    cases hr
  | requesting =>
    rw [(hharmless.2 hs).resolve_right fun hr => htrust hr.1, ← hs]
    exact h

/-- The two clients do the same and stay alike. -/
def TurnAlike (r r' : Option Client × List Output) : Prop :=
  r.2 = r'.2 ∧ Option.Rel Alike r.1 r'.1

theorem Alike.timeout (h : Alike s t) :
    TurnAlike (step hwaddr s .timeout) (step hwaddr t .timeout) := by
  cases hs : s.state with
  | requesting =>
    rw [h.eq_of_requesting hs]
    refine ⟨rfl, ?_⟩
    rw [step_timeout]
    split
    · exact .none
    · exact .some (.refl (idle_of_requesting (by rw [transmit_state]; exact hs)))
  | selecting =>
    have ht : t.state = .selecting := h.state_eq.trans hs
    have htimeout : t.timeout = s.timeout := by rw [h.same]
    rw [step_timeout, step_timeout, htimeout]
    split
    · rw [if_neg (h.idle_left hs), if_neg (h.idle_right ht)]
      exact ⟨rfl, .none⟩
    · have hxid : t.xid = s.xid := by rw [h.same]
      simp only [transmit, hs, ht, hxid]
      refine ⟨rfl, .some ⟨?_, fun hr => ?_, fun _ => h.idle_left hs, fun _ => h.idle_right ht⟩⟩
      · rw [h.same]
      · cases hr

theorem Alike.step (hwaddr : Vector UInt8 6) (h : Alike s t) (he : ¬ Untrusted s e) :
    TurnAlike (step hwaddr s e) (step hwaddr t e) := by
  cases e with
  | timeout => exact h.timeout
  | pollFailed errno =>
    rw [Libnetutils.step, Libnetutils.step]
    split
    · exact ⟨rfl, .some h⟩
    · exact ⟨rfl, .none⟩
  | receiveFailed errno =>
    rw [Libnetutils.step, Libnetutils.step]
    split
    · exact ⟨rfl, .none⟩
    · exact ⟨rfl, .some h⟩
  | packet reply =>
    have htrust : s.Trusts reply := not_not.mp he
    rw [h.step_packet]
    refine ⟨rfl, ?_⟩
    cases hr : (Libnetutils.step hwaddr s (.packet reply)).1 with
    | none => exact .none
    | some s' => exact .some (.refl (idle_of_trusted_packet htrust hr))

end Turn

/-! ## Whole runs -/

section Runs

variable {hwaddr : Vector UInt8 6} {s t : Client} {es : List Event} {seen : List (Client × DhcpMsg)}

theorem Grounded.run (h : Grounded seen s)
    (hharmless : ∀ v ∈ visits hwaddr s es, Harmless v.1 v.2) :
    ∀ o ∈ run hwaddr s es, Rests hwaddr (seen ++ visits hwaddr s es) o := by
  induction es generalizing s seen with
  | nil =>
    intro o ho
    cases ho
  | cons e es ih =>
    rw [visits] at hharmless
    rw [Libnetutils.run, visits]
    obtain ⟨hrests, hnext⟩ := h.step hwaddr e fun v hv =>
      hharmless v (List.mem_append_left _ hv)
    intro o ho
    rcases List.mem_append.mp ho with ho | ho
    · rw [← List.append_assoc]
      exact (hrests o ho).mono (List.subset_append_left _ _)
    · cases hr : (Libnetutils.step hwaddr s e).1 with
      | none =>
        rw [hr] at ho
        cases ho
      | some s' =>
        rw [hr] at ho hharmless
        have hlater := ih (hnext s' hr) (fun v hv => hharmless v (List.mem_append_right _ hv)) o ho
        rwa [List.append_assoc] at hlater

/-- Without the packets that fail the check the client does the same. -/
theorem Alike.run (h : Alike s t) (hharmless : ∀ v ∈ visits hwaddr s es, Harmless v.1 v.2) :
    run hwaddr s es = run hwaddr t (trusted hwaddr s es) := by
  induction es generalizing s t with
  | nil => rfl
  | cons e es ih =>
    rw [visits] at hharmless
    rw [Libnetutils.run, trusted]
    by_cases he : Untrusted s e
    · cases e with
      | packet reply =>
        have hnext := h.untrusted he (hharmless (s, reply) (by simp [visit]))
        rw [if_pos he, step_packet_of_untrusted he, List.nil_append, List.nil_append]
        rw [step_packet_of_untrusted he] at hharmless
        exact ih hnext fun v hv => hharmless v (List.mem_append_right _ hv)
      | timeout => exact he.elim
      | pollFailed errno => exact he.elim
      | receiveFailed errno => exact he.elim
    · obtain ⟨hout, hnext⟩ := h.step hwaddr he
      rw [if_neg he, List.singleton_append, Libnetutils.run, hout]
      congr 1
      generalize (Libnetutils.step hwaddr s e).1 = next at hnext hharmless ⊢
      generalize (Libnetutils.step hwaddr t e).1 = next' at hnext ⊢
      cases hnext with
      | none => rfl
      | some hnext => exact ih hnext fun v hv => hharmless v (List.mem_append_right _ hv)

end Runs

/-- If every packet of a run is harmless to the client that it finds, each request carries the
address and the server of an offer that passed the check, the interface is configured from a reply
that passed it, and the packets that fail it change nothing that the client does. -/
theorem dhcp_rests_on_valid_replies (hwaddr : Vector UInt8 6) (xid : UInt32) (garbage : DhcpInfo)
    (discoverMsg requestMsg : DhcpMsg) (es : List Event)
    (h : ∀ v ∈ visits hwaddr (start hwaddr xid garbage discoverMsg requestMsg).1 es,
      Harmless v.1 v.2) :
    (∀ o ∈ run hwaddr (start hwaddr xid garbage discoverMsg requestMsg).1 es,
      Rests hwaddr (visits hwaddr (start hwaddr xid garbage discoverMsg requestMsg).1 es) o) ∧
    run hwaddr (start hwaddr xid garbage discoverMsg requestMsg).1 es =
      run hwaddr (start hwaddr xid garbage discoverMsg requestMsg).1
        (trusted hwaddr (start hwaddr xid garbage discoverMsg requestMsg).1 es) := by
  have htype : (start hwaddr xid garbage discoverMsg requestMsg).1.info.type ≠ DHCPOFFER.toUInt32 := by
    change (0 : UInt32) ≠ _
    decide
  have hgrounded : Grounded [] (start hwaddr xid garbage discoverMsg requestMsg).1 :=
    ⟨nofun, fun ht => absurd ht htype⟩
  exact ⟨hgrounded.run h, (Alike.refl fun _ => htype).run h⟩

/-- The address of the client in the runs below. -/
def mac : Vector UInt8 6 := #v[2, 0, 0, 0, 0, 1]

def replyOf (type : UInt8) (xid yiaddr serveraddr : UInt32) : DhcpMsg :=
  [OP_BOOTREPLY, HTYPE_ETHER, 6, 0] ++ store32 xid ++ List.replicate 8 0 ++ store32 yiaddr ++
    List.replicate 8 0 ++ mac.toList ++ List.replicate 202 0 ++ cookie ++
    [OPT_MESSAGE_TYPE, 1, type] ++ [OPT_SERVER_ID, 4] ++ store32 serveraddr ++ [OPT_END]

/-- A client that has sent its first message. -/
def started : Client := (start mac 7 {} [] []).1

/-- An offer, its repetition, a timeout and the acknowledgement. -/
def plainRun : List Event :=
  [.packet (replyOf DHCPOFFER 7 100 1), .packet (replyOf DHCPOFFER 7 100 1), .timeout,
    .packet (replyOf DHCPACK 8 100 1)]

theorem dhcp_rests_on_valid_replies_plain :
    run mac started plainRun = run mac started (trusted mac started plainRun) :=
  (dhcp_rests_on_valid_replies mac 7 {} [] [] plainRun (by decide +kernel)).2

/-- The offer of a second server comes after the request. -/
def lateOffer : List Event :=
  [.packet (replyOf DHCPOFFER 7 100 1), .packet (replyOf DHCPOFFER 7 200 2), .timeout]

/-- The late offer is not a reply to the request, and the next request still carries its address and
its server. -/
theorem late_offer_requested :
    run mac started lateOffer =
      [.send (initDhcpRequestMsg mac 8 100 1), .send (initDhcpRequestMsg mac 8 200 2)] ∧
    (visits mac started lateOffer).map (fun v => decide (v.1.Trusts v.2)) = [true, false] ∧
    run mac started (trusted mac started lateOffer) =
      [.send (initDhcpRequestMsg mac 8 100 1), .send (initDhcpRequestMsg mac 8 100 1)] := by
  decide +kernel

/-! ## How much is sent -/

/-- `n` messages are left: `timeout` can be doubled `k` times, and an offer starts over. -/
def Left (s : Client) (n : Nat) : Prop :=
  ∃ k, TIMEOUT_MAX ≤ s.timeout * 2 ^ k ∧ k + (if s.state = .selecting then 4 else 0) ≤ n

/-- Every timeout sends a message, `n` at most, or the last output is the end of the exchange. -/
def Limited (n : Nat) (es : List Event) (os : List Output) : Prop :=
  ∃ (sent : List DhcpMsg) (ending : Option Output), os = sent.map .send ++ ending.toList ∧
    sent.length ≤ n ∧ (∀ msg, ending ≠ some (.send msg)) ∧
    (ending = none → es.count .timeout ≤ sent.length)

/-- A turn with `n` messages left. -/
inductive Turns (n : Nat) (e : Event) : Option Client × List Output → Prop
  | ended {o : Output} (ho : ∀ msg, o ≠ .send msg) : Turns n e (none, [o])
  | quiet {s : Client} (he : e ≠ .timeout) (h : Left s n) : Turns n e (some s, [])
  | sent {s : Client} {m : Nat} (msg : DhcpMsg) (hm : m < n) (h : Left s m) :
      Turns n e (some s, [.send msg])

theorem three_doublings : TIMEOUT_MAX ≤ TIMEOUT_INITIAL * 2 ^ 3 := by decide

section Limits

variable {hwaddr : Vector UInt8 6} {s : Client} {n : Nat}

theorem transmit_turns {e : Event} {m : Nat} (hm : m < n) (h : Left s m) :
    Turns n e (some (transmit hwaddr s).1, [(transmit hwaddr s).2]) := by
  unfold transmit
  split <;> exact .sent _ hm h

theorem step_turns (h : Left s n) (e : Event) : Turns n e (step hwaddr s e) := by
  cases e with
  | timeout =>
    rw [step_timeout]
    split
    · split <;> exact .ended nofun
    · obtain ⟨_ | k, hk, hn⟩ := h
      · omega
      · rw [pow_succ, mul_comm (2 ^ k), ← mul_assoc] at hk
        have hn' : k + (if s.state = .selecting then 4 else 0) ≤ n - 1 := by omega
        exact transmit_turns (by omega) ⟨k, hk, hn'⟩
  | pollFailed errno =>
    simp only [step]
    split
    · exact .quiet nofun h
    · exact .ended nofun
  | receiveFailed errno =>
    simp only [step]
    split
    · exact .ended nofun
    · exact .quiet nofun h
  | packet reply =>
    have hq : Turns n (.packet reply) (some { s with info := decodeDhcpMsg reply }, []) :=
      .quiet nofun h
    by_cases ht : s.Trusts reply
    · rw [step_packet_of_trusts ht]
      cases hs : s.state with
      | selecting =>
        rw [hs] at hq
        obtain ⟨k, -, hn⟩ := h
        rw [hs, if_pos rfl] at hn
        simp only
        split
        · exact transmit_turns (by omega : 3 < n) ⟨3, three_doublings, le_rfl⟩
        · exact hq
      | requesting =>
        rw [hs] at hq
        simp only
        split_ifs
        · exact .ended nofun
        · exact .ended nofun
        · exact hq
    · rw [step_packet_of_untrusted ht]
      exact hq

theorem run_limited (h : Left s n) (es : List Event) : Limited n es (run hwaddr s es) := by
  induction es generalizing s n with
  | nil => exact ⟨[], none, rfl, n.zero_le, nofun, fun _ => le_rfl⟩
  | cons e es ih =>
    have ht : Turns n e (step hwaddr s e) := step_turns h e
    unfold run
    generalize step hwaddr s e = r at ht
    cases ht with
    | ended ho => exact ⟨[], some _, rfl, n.zero_le, fun msg h => ho msg (Option.some.inj h), nofun⟩
    | quiet he h' =>
      obtain ⟨sent, ending, hos, hn, hend, hcount⟩ := ih h'
      refine ⟨sent, ending, hos, hn, hend, fun hnil => ?_⟩
      rw [List.count_cons_of_ne he]
      exact hcount hnil
    | sent msg hm h' =>
      obtain ⟨sent, ending, hos, hn, hend, hcount⟩ := ih h'
      refine ⟨msg :: sent, ending, congrArg _ hos, by simp; omega, hend, fun hnil => ?_⟩
      have hc := hcount hnil
      rw [List.count_cons, List.length_cons]
      split <;> omega

end Limits

/-- Behind the first message a run sends at most seven, whatever comes in. -/
theorem dhcp_sends_limited (hwaddr : Vector UInt8 6) (xid : UInt32) (garbage : DhcpInfo)
    (discoverMsg requestMsg : DhcpMsg) (es : List Event) :
    Limited 7 es (run hwaddr (start hwaddr xid garbage discoverMsg requestMsg).1 es) :=
  run_limited ⟨3, three_doublings, le_rfl⟩ es

end SystemCore.Libnetutils
