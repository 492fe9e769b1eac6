import Mathlib.Tactic.IntervalCases
import SystemCore.Libnetutils.Packet

/-!
# Sending a DHCP packet, and receiving it

`send_packet` folds the UDP checksum after each part of the packet, and `receive_packet` takes it of
the packet behind a pseudo header. Both come to the same sum, but where the checksum is 0 the
receiver expects 0xffff, which the sender does not write.
-/
namespace SystemCore.Libnetutils

open List

def htons (n : Nat) : List UInt8 := [UInt8.ofNat (n / 256), UInt8.ofNat n]

/-- A `uint16_t` in memory. -/
def bytes16 (x : UInt32) : List UInt8 := [x.toUInt8, (x >>> 8).toUInt8]

def bytes32 (x : UInt32) : List UInt8 := bytes16 x ++ bytes16 (x >>> 16)

def IPDEFTTL : UInt8 := 64

def ipHeader (totLen : Nat) (saddr daddr check : UInt32) : List UInt8 :=
  [69, 0] ++ htons totLen ++ [0, 0, 0, 0, IPDEFTTL, IPPROTO_UDP] ++ bytes16 check ++
    bytes32 saddr ++ bytes32 daddr

def udpHeader (len : Nat) (sport dport check : UInt32) : List UInt8 :=
  htons sport.toNat ++ htons dport.toNat ++ htons len ++ bytes16 check

abbrev buffer (bytes : List UInt8) : Memory := loaded bytes fun _ => 0

def ipCheck (totLen : Nat) (saddr daddr : UInt32) : UInt32 :=
  finishSum (checksum (buffer (ipHeader totLen saddr daddr 0)) IPHDR_SIZE 0)

section Send

variable (msg : List UInt8) (saddr daddr sport dport : UInt32)

def udpCheck : UInt32 :=
  let udpsum := checksum (buffer (bytes32 saddr)) 4 0
  let udpsum := checksum (buffer (bytes32 daddr)) 4 udpsum
  let udpsum := checksum (buffer (htons IPPROTO_UDP.toNat)) 2 udpsum
  let udpsum := checksum (buffer (htons (UDPHDR_SIZE + msg.length))) 2 udpsum
  let udpsum := checksum (buffer (udpHeader (UDPHDR_SIZE + msg.length) sport dport 0)) UDPHDR_SIZE
    udpsum
  finishSum (checksum (buffer msg) msg.length udpsum)

/-- The bytes that `sendmsg` gets. -/
def sendPacket : List UInt8 :=
  ipHeader (IPHDR_SIZE + UDPHDR_SIZE + msg.length) saddr daddr
      (ipCheck (IPHDR_SIZE + UDPHDR_SIZE + msg.length) saddr daddr) ++
    udpHeader (UDPHDR_SIZE + msg.length) sport dport (udpCheck msg saddr daddr sport dport) ++ msg

end Send

/-! ## Sums -/

/-- The sum of the words, as the host reads them. -/
def wordSum : List UInt8 → Nat
  | [] => 0
  | [a] => a.toNat
  | a :: b :: bytes => a.toNat + 256 * b.toNat + wordSum bytes

theorem wordSum_le : ∀ bytes, wordSum bytes ≤ 65535 * bytes.length
  | [] => Nat.le_refl _
  | [a] => by
    have := a.toNat_lt
    simp only [wordSum, length_singleton]
    omega
  | a :: b :: bytes => by
    have ha := a.toNat_lt
    have hb := b.toNat_lt
    have hbytes := wordSum_le bytes
    simp only [wordSum, length_cons]
    omega

theorem word_toNat (mem : Memory) (i : Nat) :
    (word mem i).toNat = (mem i).toNat + 256 * (mem (i + 1)).toNat := by
  have hlow := (mem i).toNat_lt
  have hhigh := (mem (i + 1)).toNat_lt
  rw [word, UInt32.toNat_add, UInt32.toNat_mul, UInt8.toNat_toUInt32, UInt8.toNat_toUInt32]
  change ((mem i).toNat + 256 * (mem (i + 1)).toNat % 2 ^ 32) % 2 ^ 32 = _
  omega

/-- The memory holds the bytes from `up` on. -/
def Held (mem : Memory) (up : Nat) (bytes : List UInt8) : Prop :=
  ∀ i b, bytes[i]? = some b → mem (up + i) = b

theorem addWords_toNat {mem : Memory} : ∀ {bytes : List UInt8} {up : Nat} {sum : UInt32},
    Held mem up bytes → sum.toNat + wordSum bytes < 2 ^ 32 →
      (addWords mem bytes.length up sum).toNat = sum.toNat + wordSum bytes
  | [], _, _, _, _ => rfl
  | [a], up, sum, h, hlt => by
    rw [length_singleton, addWords, show mem up = a from h 0 a rfl, UInt32.toNat_add,
      UInt8.toNat_toUInt32]
    exact Nat.mod_eq_of_lt hlt
  | a :: b :: bytes, up, sum, h, hlt => by
    have hword := word_toNat mem up
    rw [show mem up = a from h 0 a rfl, h 1 b rfl] at hword
    simp only [wordSum] at hlt ⊢
    have hsum : (sum + word mem up).toNat = sum.toNat + (a.toNat + 256 * b.toNat) := by
      rw [UInt32.toNat_add, hword]
      omega
    have hrest : Held mem (up + 2) bytes := by
      intro i c hc
      rw [Nat.add_assoc, Nat.add_comm 2]
      exact h (i + 2) c hc
    rw [length_cons, length_cons, addWords, addWords_toNat hrest (by omega), hsum]
    omega

theorem folded_add (a b : Nat) : folded (folded a + b) = folded (a + b) := by
  unfold folded
  split_ifs <;> omega

theorem finishSum_toNat {sum : UInt32} (h : sum.toNat ≤ 65535) :
    (finishSum sum).toNat = 65535 - sum.toNat := by
  rw [finishSum, toNat_and_ffff, UInt32.toNat_not]
  change (2 ^ 32 - 1 - sum.toNat) % 65536 = _
  omega

theorem checksum_toNat {mem : Memory} {bytes : List UInt8} {start : UInt32}
    (h : Held mem 0 bytes) (hstart : start.toNat ≤ 65535) (hlen : bytes.length ≤ PACKET_SIZE) :
    (checksum mem bytes.length start).toNat = folded (start.toNat + wordSum bytes) := by
  have hle := wordSum_le bytes
  have hsize : PACKET_SIZE = 1288 := rfl
  rw [checksum, foldUpper_two, addWords_toNat h (by omega)]

theorem held_loaded (bytes : List UInt8) (stack : Memory) : Held (loaded bytes stack) 0 bytes := by
  intro i b hb
  rw [Nat.zero_add, loaded, hb]
  rfl

theorem folded_of_le {n : Nat} (h : n ≤ 65535) : folded n = n := by
  unfold folded
  split_ifs <;> omega

theorem folded_le (n : Nat) : folded n ≤ 65535 := by
  unfold folded
  split_ifs <;> omega

/-- Sums that are folded part by part. -/
theorem checksums_toNat : ∀ {parts : List (List UInt8)} {start : UInt32}, start.toNat ≤ 65535 →
    (∀ part ∈ parts, part.length ≤ PACKET_SIZE) →
      (parts.foldl (fun sum part => checksum (buffer part) part.length sum) start).toNat =
        folded (start.toNat + (parts.map wordSum).sum)
  | [], _, hstart, _ => (folded_of_le hstart).symm
  | part :: parts, start, hstart, hlen => by
    have hfirst := checksum_toNat (held_loaded part fun _ => 0) hstart (hlen part mem_cons_self)
    rw [foldl_cons, checksums_toNat (by rw [hfirst]; exact folded_le _)
      fun p hp => hlen p (mem_cons_of_mem _ hp), hfirst, folded_add, map_cons,
      sum_cons, Nat.add_assoc]

variable {msg : List UInt8} {saddr daddr sport dport : UInt32} {stack : Memory}

def pseudoPacket (msg : List UInt8) (saddr daddr sport dport : UInt32) : List UInt8 :=
  [0, 0] ++ htons (UDPHDR_SIZE + msg.length) ++ [0, 0, 0, 0, 0, IPPROTO_UDP, 0, 0] ++
    bytes32 saddr ++ bytes32 daddr ++ udpHeader (UDPHDR_SIZE + msg.length) sport dport 0 ++ msg

theorem udpCheck_toNat (hlen : msg.length ≤ DHCP_MSG_SIZE) :
    (udpCheck msg saddr daddr sport dport).toNat =
      65535 - folded (wordSum (pseudoPacket msg saddr daddr sport dport)) := by
  have hparts := @checksums_toNat [bytes32 saddr, bytes32 daddr, htons IPPROTO_UDP.toNat,
    htons (UDPHDR_SIZE + msg.length), udpHeader (UDPHDR_SIZE + msg.length) sport dport 0, msg] 0 (by decide) (by
      simp [bytes32, bytes16, htons, udpHeader, PACKET_SIZE, IPHDR_SIZE, UDPHDR_SIZE]
      omega)
  have hsum : (0 : UInt32).toNat + ([bytes32 saddr, bytes32 daddr, htons IPPROTO_UDP.toNat,
      htons (UDPHDR_SIZE + msg.length), udpHeader (UDPHDR_SIZE + msg.length) sport dport 0, msg].map wordSum).sum =
        wordSum (pseudoPacket msg saddr daddr sport dport) := by
    simp [wordSum, bytes32, bytes16, htons, udpHeader, pseudoPacket, IPPROTO_UDP]
    omega
  rw [hsum] at hparts
  have hle := folded_le (wordSum (pseudoPacket msg saddr daddr sport dport))
  have hfinish := finishSum_toNat (le_of_eq_of_le hparts hle)
  rw [hparts] at hfinish
  exact hfinish

theorem bytes16_toNat {x : UInt32} (h : x.toNat ≤ 65535) :
    x.toUInt8.toNat + 256 * (x >>> 8).toUInt8.toNat = x.toNat := by
  rw [UInt32.toNat_toUInt8, UInt32.toNat_toUInt8, UInt32.toNat_shiftRight,
    show (8 : UInt32).toNat % 32 = 8 from rfl, Nat.shiftRight_eq_div_pow]
  omega

theorem htons_toNat {n : Nat} (h : n < 65536) :
    256 * (UInt8.ofNat (n / 256)).toNat + (UInt8.ofNat n).toNat = n := by
  rw [UInt8.toNat_ofNat', UInt8.toNat_ofNat']
  omega

theorem Held.left {mem : Memory} {up : Nat} {bytes bytes' : List UInt8}
    (h : Held mem up (bytes ++ bytes')) : Held mem up bytes := by
  intro i b hb
  have hi := (List.getElem?_eq_some_iff.mp hb).1
  exact h i b ((List.getElem?_append_left hi).trans hb)

theorem ipHeader_sum {mem : Memory} {totLen : Nat} {check : UInt32} (hcheck : check.toNat ≤ 65535)
    (h : Held mem 0 (ipHeader totLen saddr daddr check)) :
    (finishSum (checksum mem IPHDR_SIZE 0)).toNat =
      65535 - folded (wordSum (ipHeader totLen saddr daddr 0) + check.toNat) := by
  have hlen : (ipHeader totLen saddr daddr check).length = IPHDR_SIZE := rfl
  have hbytes := bytes16_toNat hcheck
  have hsum : 0 + wordSum (ipHeader totLen saddr daddr check) =
      wordSum (ipHeader totLen saddr daddr 0) + check.toNat := by
    simp [wordSum, ipHeader, htons, bytes32, bytes16]
    omega
  have hchecksum := @checksum_toNat mem _ 0 h (by decide) (by rw [hlen]; decide)
  rw [hlen, UInt32.toNat_zero, hsum] at hchecksum
  rw [finishSum_toNat (hchecksum ▸ folded_le _), hchecksum]

/-- The sum over a header with its checksum is 0. -/
theorem ipSum_ipHeader (totLen : Nat) (saddr daddr : UInt32) (rest : List UInt8) (stack : Memory) :
    ipSum (loaded (ipHeader totLen saddr daddr (ipCheck totLen saddr daddr) ++ rest) stack) = 0 := by
  have hcheck : (ipCheck totLen saddr daddr).toNat = _ :=
    ipHeader_sum (by decide) (held_loaded _ fun _ => 0)
  have hsum := ipHeader_sum (by omega)
    (held_loaded (ipHeader totLen saddr daddr (ipCheck totLen saddr daddr) ++ rest) stack).left
  have hpos : 69 ≤ wordSum (ipHeader totLen saddr daddr 0) := by
    simp [wordSum, ipHeader, htons, bytes32, bytes16]
  rw [ipSum, ← UInt32.toNat_inj, hsum, hcheck]
  unfold folded
  split_ifs <;> simp <;> omega

theorem held_pseudo : Held (pseudo (loaded (sendPacket msg saddr daddr sport dport) stack)) 0
    (pseudoPacket msg saddr daddr sport dport) := by
  intro i b hb
  rw [Nat.zero_add]
  unfold sendPacket
  generalize ipCheck _ saddr daddr = ip, udpCheck msg saddr daddr sport dport = udp
  obtain hi | hi := Nat.lt_or_ge i 28
  · interval_cases i <;> exact Option.some.inj hb
  · have hp : (pseudoPacket msg saddr daddr sport dport)[i]? = msg[i - 28]? :=
      List.getElem?_append_right hi
    have hs : (ipHeader (IPHDR_SIZE + UDPHDR_SIZE + msg.length) saddr daddr ip ++
        udpHeader (UDPHDR_SIZE + msg.length) sport dport udp ++ msg)[i]? = msg[i - 28]? :=
      List.getElem?_append_right hi
    rw [pseudo, if_neg (by omega), if_pos (by omega), loaded, hs, ← hp, hb]
    rfl

theorem length_sendPacket :
    (sendPacket msg saddr daddr sport dport).length = IPHDR_SIZE + UDPHDR_SIZE + msg.length := by
  rw [sendPacket, length_append]
  rfl

theorem totLen_sendPacket (hlen : msg.length ≤ DHCP_MSG_SIZE) :
    totLen (loaded (sendPacket msg saddr daddr sport dport) stack) =
      IPHDR_SIZE + UDPHDR_SIZE + msg.length :=
  htons_toNat (Nat.lt_of_le_of_lt (Nat.add_le_add_left hlen _) (by decide))

theorem isValid_sendPacket (hlen : msg.length ≤ DHCP_MSG_SIZE) :
    isValid (loaded (sendPacket msg saddr daddr sport 68) stack)
      (IPHDR_SIZE + UDPHDR_SIZE + msg.length) = true := by
  have hfirst : loaded (sendPacket msg saddr daddr sport 68) stack 0 = 69 := rfl
  rw [isValid, if_neg (by omega), version, ihl, hfirst, if_neg (by decide), totLen_sendPacket hlen,
    if_neg (by omega)]
  rfl

/-- The receiver computes the checksum of the sender. -/
theorem udpSum_sendPacket (hlen : msg.length ≤ DHCP_MSG_SIZE) :
    udpSum (loaded (sendPacket msg saddr daddr sport dport) stack) =
      if udpCheck msg saddr daddr sport dport = 0 then finishSum 0
      else udpCheck msg saddr daddr sport dport := by
  have hlength : (pseudoPacket msg saddr daddr sport dport).length =
      IPHDR_SIZE + UDPHDR_SIZE + msg.length := by
    rw [pseudoPacket, length_append]
    rfl
  have hsum := @checksum_toNat _ _ 0 (@held_pseudo msg saddr daddr sport dport stack) (by decide)
    (hlength ▸ Nat.add_le_add_left hlen _)
  rw [hlength, UInt32.toNat_zero, Nat.zero_add] at hsum
  have hfinish := finishSum_toNat (hsum ▸ folded_le _)
  rw [hsum, ← udpCheck_toNat hlen, UInt32.toNat_inj] at hfinish
  rw [udpSum, totLen_sendPacket hlen, hfinish]
  split
  · rename_i h
    rw [h]
  · rfl

/-- The checksum is 0 where the words of the packet behind its pseudo header come to a multiple of
65535. -/
theorem udpCheck_eq_zero_iff (hlen : msg.length ≤ DHCP_MSG_SIZE) :
    udpCheck msg saddr daddr sport dport = 0 ↔
      wordSum (pseudoPacket msg saddr daddr sport dport) % 65535 = 0 := by
  have hpos : 17 ≤ wordSum (pseudoPacket msg saddr daddr sport dport) := by
    simp [pseudoPacket, wordSum, htons, IPPROTO_UDP]
    omega
  rw [← UInt32.toNat_inj, udpCheck_toNat hlen, UInt32.toNat_zero]
  unfold folded
  split_ifs <;> omega

/-- A packet comes back exactly if the words of the packet behind its pseudo header do not come to a
multiple of 65535. -/
theorem packet_round_trip_iff (msg : List UInt8) (hlen : msg.length ≤ DHCP_MSG_SIZE)
    (saddr daddr sport : UInt32) (stack : Memory) :
    (receivePacket (some (sendPacket msg saddr daddr sport 68)) stack = some (msg.length : Int) ∧
        copied (loaded ((sendPacket msg saddr daddr sport 68).take PACKET_SIZE) stack) msg.length =
          msg) ↔
      wordSum (pseudoPacket msg saddr daddr sport 68) % 65535 ≠ 0 := by
  rw [ne_eq, ← udpCheck_eq_zero_iff hlen]
  have htake : (sendPacket msg saddr daddr sport 68).take PACKET_SIZE =
      sendPacket msg saddr daddr sport 68 :=
    take_of_length_le (by rw [length_sendPacket]; exact Nat.add_le_add_left hlen _)
  have hcopied : copied (loaded (sendPacket msg saddr daddr sport 68) stack) msg.length = msg := by
    rw [copied_loaded (by rw [length_sendPacket]), sendPacket, drop_left']
    · exact take_length
    · rfl
  have hudpLen : udpLen (loaded (sendPacket msg saddr daddr sport 68) stack) =
      UDPHDR_SIZE + msg.length :=
    htons_toNat (Nat.lt_of_le_of_lt (Nat.add_le_add_left hlen _) (by decide))
  have hword : word (loaded (sendPacket msg saddr daddr sport 68) stack) 26 =
      udpCheck msg saddr daddr sport 68 := by
    rw [← UInt32.toNat_inj, word_toNat]
    exact bytes16_toNat (by rw [udpCheck_toNat hlen]; omega)
  have hip : ipSum (loaded (sendPacket msg saddr daddr sport 68) stack) = 0 := by
    rw [sendPacket, append_assoc]
    exact ipSum_ipHeader _ saddr daddr _ stack
  rw [receivePacket_eq_some_iff, htake, length_sendPacket, hudpLen, Passes, hword,
    udpSum_sendPacket hlen]
  constructor
  · rintro ⟨⟨⟨-, -, hsum⟩, -⟩, -⟩ h
    rw [if_pos h, h] at hsum
    exact absurd hsum (by decide)
  · intro h
    exact ⟨⟨⟨isValid_sendPacket hlen, hip, (if_neg h).symm⟩, by omega⟩, hcopied⟩

/-- A message of three bytes comes back. -/
theorem packet_round_trip_odd :
    receivePacket (some (sendPacket [2, 1, 6] 0 0xFFFFFFFF 67 68)) (fun _ => 0) = some 3 :=
  ((packet_round_trip_iff [2, 1, 6] (by decide) 0 0xFFFFFFFF 67 fun _ => 0).mpr
    (by decide +kernel)).1

/-- A message of two bytes that brings the sum to 0xffff. -/
theorem packet_lost :
    wordSum (pseudoPacket [255, 83] 0 0 67 68) = 0xffff ∧
      receivePacket (some (sendPacket [255, 83] 0 0 67 68)) (fun _ => 0) = none := by
  decide +kernel

end SystemCore.Libnetutils
