import Mathlib.Data.UInt

/-!
# Receiving a DHCP packet from the raw socket

`receive_packet` checks the version, the lengths of the IP header, the protocol, the port and two
checksums, and then copies as many bytes as the UDP header says. The UDP length itself is compared
with nothing. The sender computes both checksums, so they do not tie it to the bytes received.
-/
namespace SystemCore.Libnetutils

/-- The bytes of `packet` on the stack, and those behind it. -/
abbrev Memory := Nat → UInt8

/-- `sizeof(struct iphdr)`. -/
def IPHDR_SIZE : Nat := 20

/-- `sizeof(struct udphdr)`. -/
def UDPHDR_SIZE : Nat := 8

/-- `sizeof(struct dhcp_msg)`. -/
def DHCP_MSG_SIZE : Nat := 1260

def PACKET_SIZE : Nat := IPHDR_SIZE + UDPHDR_SIZE + DHCP_MSG_SIZE

def IPVERSION : UInt8 := 4

def IPPROTO_UDP : UInt8 := 17

def PORT_BOOTP_CLIENT : Nat := 68

/-- A `uint16_t` as the host reads it. -/
def word (buffer : Memory) (i : Nat) : UInt32 :=
  (buffer i).toUInt32 + 256 * (buffer (i + 1)).toUInt32

/-- `ntohs` of a `uint16_t`. -/
def ntohs (buffer : Memory) (i : Nat) : Nat := 256 * (buffer i).toNat + (buffer (i + 1)).toNat

/-! ## Checksums -/

/-- The loop of `checksum` over the words, with the odd byte at the end. -/
def addWords (buffer : Memory) : (count up : Nat) → (sum : UInt32) → UInt32
  | 0, _, sum => sum
  | 1, up, sum => sum + (buffer up).toUInt32
  | count + 2, up, sum => addWords buffer count (up + 2) (sum + word buffer up)

/-- The loop of `checksum` that folds the upper half in. -/
def foldUpper : (fuel : Nat) → (sum : UInt32) → UInt32
  | 0, sum => sum
  | fuel + 1, sum =>
    if sum >>> 16 ≠ 0 then foldUpper fuel ((sum &&& (0xffff : UInt32)) + (sum >>> 16)) else sum

def checksum (buffer : Memory) (count : Nat) (startsum : UInt32) : UInt32 :=
  foldUpper 2 (addWords buffer count 0 startsum)

def finishSum (sum : UInt32) : UInt32 := ~~~sum &&& 0xffff

/-! ## The packet -/

def version (packet : Memory) : UInt8 := packet 0 >>> 4

def ihl (packet : Memory) : UInt8 := packet 0 &&& 15

def totLen (packet : Memory) : Nat := ntohs packet 2

def udpLen (packet : Memory) : Nat := ntohs packet 24

/-- What is in `packet` after the `read`: the bytes received, and what was there before. -/
def loaded (received : List UInt8) (stack : Memory) : Memory :=
  fun i => received[i]?.getD (stack i)

def isValid (packet : Memory) (nread : Nat) : Bool :=
  if nread < IPHDR_SIZE + UDPHDR_SIZE then false
  else if version packet ≠ IPVERSION ∨ ihl packet ≠ 5 then false
  else if nread < totLen packet then false
  else if packet 9 ≠ IPPROTO_UDP then false
  else if ntohs packet 22 ≠ PORT_BOOTP_CLIENT then false
  else true

def ipSum (packet : Memory) : UInt32 := finishSum (checksum packet IPHDR_SIZE 0)

/-- The packet with the pseudo header in place of the IP header, and without the UDP checksum. -/
def pseudo (packet : Memory) : Memory := fun i =>
  if i = 26 ∨ i = 27 then 0
  else if 12 ≤ i then packet i
  else if i = 9 then IPPROTO_UDP
  else if i = 2 then packet 24
  else if i = 3 then packet 25
  else 0

def udpSum (packet : Memory) : UInt32 :=
  let sum := finishSum (checksum (pseudo packet) (totLen packet) 0)
  if sum = 0 then finishSum sum else sum

/-- What `memcpy` takes from `packet.dhcp`. -/
def copied (packet : Memory) (size : Nat) : List UInt8 :=
  (List.range size).map fun i => packet (IPHDR_SIZE + UDPHDR_SIZE + i)

/-- `receive_packet` for the datagram that is next on the socket: `dhcp_size` where it copies that
many bytes and returns it, `none` where it returns -1 before. -/
def receivePacket (datagram : Option (List UInt8)) (stack : Memory) : Option Int :=
  match datagram with
  | none => none
  | some bytes =>
    let received := bytes.take PACKET_SIZE
    let packet := loaded received stack
    if isValid packet received.length = false then none
    else if ipSum packet ≠ 0 then none
    else if word packet 26 ≠ udpSum packet then none
    else some ((udpLen packet : Int) - UDPHDR_SIZE)

/-! ## The checks -/

/-- What is left of a sum after its upper half is folded in. -/
def folded (n : Nat) : Nat := if n = 0 then 0 else (n - 1) % 65535 + 1

theorem toNat_and_ffff (s : UInt32) : (s &&& 0xffff).toNat = s.toNat % 65536 := by
  rw [UInt32.toNat_and, show (0xffff : UInt32).toNat = 2 ^ 16 - 1 from rfl,
    Nat.and_two_pow_sub_one_eq_mod]

/-- Two turns are enough for 32 bits. -/
theorem foldUpper_two (sum : UInt32) : (foldUpper 2 sum).toNat = folded sum.toNat := by
  have hupper : ∀ s : UInt32, (s >>> 16).toNat = s.toNat / 65536 := by
    intro s
    rw [UInt32.toNat_shiftRight, show (16 : UInt32).toNat % 32 = 16 from rfl,
      Nat.shiftRight_eq_div_pow]
  have hzero : ∀ s : UInt32, s >>> 16 = 0 ↔ s.toNat < 65536 := by
    intro s
    rw [← UInt32.toNat_inj, hupper, UInt32.toNat_zero, Nat.div_eq_zero_iff]
    omega
  have hfold : ∀ s : UInt32,
      ((s &&& (0xffff : UInt32)) + (s >>> 16)).toNat = s.toNat % 65536 + s.toNat / 65536 := by
    intro s
    have hlt := UInt32.toNat_lt s
    rw [UInt32.toNat_add, toNat_and_ffff, hupper]
    omega
  have hlt := UInt32.toNat_lt sum
  simp only [foldUpper, ne_eq, hzero, folded]
  split_ifs <;> simp only [hfold] at * <;> omega

/-- The packet passes every check of `receive_packet`. -/
def Passes (packet : Memory) (nread : Nat) : Prop :=
  isValid packet nread = true ∧ ipSum packet = 0 ∧ word packet 26 = udpSum packet

section Checks

variable {datagram : List UInt8} {stack : Memory} {r : Int}

theorem receivePacket_eq_some_iff :
    receivePacket (some datagram) stack = some r ↔
      Passes (loaded (datagram.take PACKET_SIZE) stack) (datagram.take PACKET_SIZE).length ∧
        r = (udpLen (loaded (datagram.take PACKET_SIZE) stack) : Int) - UDPHDR_SIZE := by
  unfold receivePacket Passes
  dsimp only
  constructor
  · intro h
    split_ifs at h with hvalid hip hudp
    exact ⟨⟨by simpa using hvalid, not_not.mp hip, not_not.mp hudp⟩, (Option.some.inj h).symm⟩
  · rintro ⟨⟨hvalid, hip, hudp⟩, rfl⟩
    rw [if_neg (by rw [hvalid]; decide), if_neg (not_not.mpr hip), if_neg (not_not.mpr hudp)]

end Checks

/-- As long as it stays within what was received, the copy takes nothing else. -/
theorem copied_loaded {received : List UInt8} {stack : Memory} {n : Nat}
    (h : IPHDR_SIZE + UDPHDR_SIZE + n ≤ received.length) :
    copied (loaded received stack) n = (received.drop (IPHDR_SIZE + UDPHDR_SIZE)).take n := by
  apply List.ext_getElem
  · rw [copied, List.length_map, List.length_range, List.length_take, List.length_drop]
    omega
  · intro i hi _
    rw [copied, List.length_map, List.length_range] at hi
    have hin : IPHDR_SIZE + UDPHDR_SIZE + i < received.length := by omega
    simp only [copied, List.getElem_map, List.getElem_range, List.getElem_take, List.getElem_drop,
      loaded, List.getElem?_eq_getElem hin, Option.getD_some]

end SystemCore.Libnetutils
