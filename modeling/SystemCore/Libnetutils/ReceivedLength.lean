import SystemCore.Libnetutils.SendPacket

/-!
# The length that `receive_packet` returns

A datagram has three lengths: the bytes read, the total length of the IP header and the length of
the UDP header. `receive_packet` checks the first two against each other and returns by the third.
For lengths that fit together every datagram is received within its bounds; for others there is a
datagram that breaks them, since the sender can compute checksums for any lengths.
-/
namespace SystemCore.Libnetutils

open List

/-- What the caller relies on: the length returned covers bytes received and fits the message, only
such bytes are copied, and a UDP length that cannot be right is rejected. -/
structure Bounded (received : List UInt8) (packet : Memory) (r : Option Int) : Prop where
  size : ∀ n : Nat, r = some (n : Int) →
    IPHDR_SIZE + UDPHDR_SIZE + n ≤ received.length ∧ n ≤ DHCP_MSG_SIZE
  bytes : ∀ n : Nat, r = some (n : Int) →
    copied packet n = (received.drop (IPHDR_SIZE + UDPHDR_SIZE)).take n
  rejects : udpLen packet < UDPHDR_SIZE ∨ totLen packet < udpLen packet → r = none

/-- The UDP length covers its header and is within the IP packet, and the bytes read cover it. -/
structure LengthsFit (nread totLen udpLen : Nat) : Prop where
  header : UDPHDR_SIZE ≤ udpLen
  packet : udpLen ≤ totLen
  received : IPHDR_SIZE + udpLen ≤ nread

section Received

variable {datagram : List UInt8} {stack : Memory}

theorem isValid_lengths {packet : Memory} {nread : Nat} (h : isValid packet nread = true) :
    IPHDR_SIZE + UDPHDR_SIZE ≤ nread ∧ totLen packet ≤ nread := by
  unfold isValid at h
  split_ifs at h
  omega

/-- A datagram with lengths that fit, or one that is not accepted, is received within bounds. -/
theorem bounded_of_lengthsFit (h : ∀ r, receivePacket (some datagram) stack = some r →
      LengthsFit (datagram.take PACKET_SIZE).length
        (totLen (loaded (datagram.take PACKET_SIZE) stack))
        (udpLen (loaded (datagram.take PACKET_SIZE) stack))) :
    Bounded (datagram.take PACKET_SIZE) (loaded (datagram.take PACKET_SIZE) stack)
      (receivePacket (some datagram) stack) := by
  have hreceived : (datagram.take PACKET_SIZE).length ≤ IPHDR_SIZE + UDPHDR_SIZE + DHCP_MSG_SIZE :=
    length_take_le _ _
  have hsize : ∀ n : Nat, receivePacket (some datagram) stack = some (n : Int) →
      IPHDR_SIZE + UDPHDR_SIZE + n ≤ (datagram.take PACKET_SIZE).length := by
    intro n hn
    have hr := (receivePacket_eq_some_iff.mp hn).2
    have hin := (h n hn).received
    omega
  refine ⟨fun n hn => ⟨hsize n hn, ?_⟩, fun n hn => copied_loaded (hsize n hn), fun hlengths => ?_⟩
  · have := hsize n hn
    omega
  · cases hr : receivePacket (some datagram) stack with
    | none => rfl
    | some r =>
      obtain ⟨hheader, hpacket, -⟩ := h r hr
      omega

/-- The lengths of an accepted datagram within bounds fit. -/
theorem Bounded.lengthsFit {r : Int} (hr : receivePacket (some datagram) stack = some r)
    (h : Bounded (datagram.take PACKET_SIZE) (loaded (datagram.take PACKET_SIZE) stack)
      (receivePacket (some datagram) stack)) :
    LengthsFit (datagram.take PACKET_SIZE).length
      (totLen (loaded (datagram.take PACKET_SIZE) stack))
      (udpLen (loaded (datagram.take PACKET_SIZE) stack)) := by
  have hlengths := mt h.rejects (by rw [hr]; exact Option.some_ne_none _)
  rw [not_or, not_lt, not_lt] at hlengths
  obtain ⟨hlow, hhigh⟩ := hlengths
  have hsize := (h.size (udpLen (loaded (datagram.take PACKET_SIZE) stack) - UDPHDR_SIZE) (by
    rw [hr, (receivePacket_eq_some_iff.mp hr).2, Int.ofNat_sub hlow])).1
  exact ⟨hlow, hhigh, by omega⟩

end Received

/-! ## A datagram for any lengths -/

theorem addWords_congr {mem mem' : Memory} : ∀ (count up : Nat) (sum : UInt32),
    (∀ i, i < up + count → mem i = mem' i) → addWords mem count up sum = addWords mem' count up sum
  | 0, _, _, _ => rfl
  | 1, up, sum, h => by rw [addWords, addWords, h up (by omega)]
  | count + 2, up, sum, h => by
    rw [addWords, addWords, word, word, h up (by omega), h (up + 1) (by omega)]
    exact addWords_congr count (up + 2) _ fun i hi => h i (by omega)

theorem udpSum_le (packet : Memory) : (udpSum packet).toNat ≤ 65535 := by
  have hfinish : ∀ sum, (finishSum sum).toNat ≤ 65535 := by
    intro sum
    rw [finishSum, toNat_and_ffff]
    omega
  unfold udpSum
  dsimp only
  split
  · exact hfinish _
  · exact hfinish _

/-- Headers with these lengths, and zeros behind them. -/
def zeroDatagram (nread totLen udpLen : Nat) (check : UInt32) : List UInt8 :=
  ipHeader totLen 0 0 (ipCheck totLen 0 0) ++ udpHeader udpLen 67 68 check ++
    replicate (nread - (IPHDR_SIZE + UDPHDR_SIZE)) 0

/-- The datagram with the checksum that `receive_packet` expects. -/
def forged (nread totLen udpLen : Nat) : List UInt8 :=
  zeroDatagram nread totLen udpLen (udpSum (buffer (zeroDatagram nread totLen udpLen 0)))

section Forged

variable {nread tot ulen : Nat} {check : UInt32} {stack : Memory}

theorem length_zeroDatagram (h : IPHDR_SIZE + UDPHDR_SIZE ≤ nread) :
    (zeroDatagram nread tot ulen check).length = nread := by
  rw [zeroDatagram, length_append, length_replicate]
  change IPHDR_SIZE + UDPHDR_SIZE + _ = nread
  omega

theorem totLen_zeroDatagram (h : tot < 2 ^ 16) :
    totLen (loaded (zeroDatagram nread tot ulen check) stack) = tot :=
  htons_toNat h

theorem udpLen_zeroDatagram (h : ulen < 2 ^ 16) :
    udpLen (loaded (zeroDatagram nread tot ulen check) stack) = ulen :=
  htons_toNat h

/-- The checksum in the datagram is not part of the sum. -/
theorem pseudo_congr {packet packet' : Memory} (h : IPHDR_SIZE + UDPHDR_SIZE ≤ nread)
    (hsame : ∀ i, i < nread → i ≠ 26 → i ≠ 27 → packet i = packet' i) {i : Nat} (hi : i < nread) :
    pseudo packet i = pseudo packet' i := by
  have hsize : IPHDR_SIZE + UDPHDR_SIZE = 28 := rfl
  unfold pseudo
  rw [hsame 24 (by omega) (by decide) (by decide), hsame 25 (by omega) (by decide) (by decide)]
  split_ifs with hcheck
  · rfl
  · rw [not_or] at hcheck
    exact hsame i hi hcheck.1 hcheck.2
  all_goals rfl

theorem loaded_zeroDatagram (h : IPHDR_SIZE + UDPHDR_SIZE ≤ nread) {i : Nat} (hi : i < nread)
    (hlow : i ≠ 26) (hhigh : i ≠ 27) : loaded (zeroDatagram nread tot ulen check) stack i =
      buffer (zeroDatagram nread tot ulen 0) i := by
  have hget : (zeroDatagram nread tot ulen check)[i]? = (zeroDatagram nread tot ulen 0)[i]? := by
    unfold zeroDatagram
    obtain hlt | hge := Nat.lt_or_ge i 26
    · simp only [udpHeader, ← append_assoc]
      rw [append_assoc _ (bytes16 check), append_assoc _ (bytes16 0)]
      exact (getElem?_append_left hlt).trans (getElem?_append_left hlt).symm
    · have hge' : 28 ≤ i := by omega
      rw [getElem?_append_right (by exact hge'), getElem?_append_right (by exact hge')]
      rfl
  have hin : i < (zeroDatagram nread tot ulen 0).length := by rwa [length_zeroDatagram h]
  unfold buffer loaded
  rw [hget, getElem?_eq_getElem hin]
  rfl

/-- The datagram passes every check. -/
theorem receivePacket_forged (hread : nread ≤ PACKET_SIZE) (h : IPHDR_SIZE + UDPHDR_SIZE ≤ nread)
    (htot : tot ≤ nread) :
    receivePacket (some (forged nread tot ulen)) stack =
      some ((udpLen (loaded (forged nread tot ulen) stack) : Int) - UDPHDR_SIZE) := by
  have hsize : PACKET_SIZE = 1288 := rfl
  have htake : (forged nread tot ulen).take PACKET_SIZE = forged nread tot ulen :=
    take_of_length_le (by rw [forged, length_zeroDatagram h]; exact hread)
  have hlen : totLen (loaded (forged nread tot ulen) stack) = tot := totLen_zeroDatagram (by omega)
  rw [receivePacket_eq_some_iff, htake]
  refine ⟨⟨?_, ?_, ?_⟩, rfl⟩
  · have hfirst : loaded (forged nread tot ulen) stack 0 = 69 := rfl
    rw [isValid, forged, length_zeroDatagram h, ← forged, if_neg (by omega), version, ihl, hfirst,
      if_neg (by decide), hlen, if_neg (by omega)]
    rfl
  · rw [forged, zeroDatagram, append_assoc]
    exact ipSum_ipHeader tot 0 0 _ stack
  · have hsum : udpSum (loaded (forged nread tot ulen) stack) =
        udpSum (buffer (zeroDatagram nread tot ulen 0)) := by
      have hlen' : totLen (buffer (zeroDatagram nread tot ulen 0)) = tot :=
        totLen_zeroDatagram (by omega)
      unfold udpSum checksum
      rw [hlen, hlen', addWords_congr tot 0 0 fun i hi => ?_]
      exact pseudo_congr h (fun i hi => loaded_zeroDatagram h hi) (by omega)
    rw [hsum, ← UInt32.toNat_inj, word_toNat]
    exact bytes16_toNat (udpSum_le _)

end Forged

/-! ## The lengths -/

/-- All datagrams with these lengths are received within bounds exactly if the lengths fit, or
`receive_packet` drops them for the bytes read. -/
theorem receive_bounded_iff (nread tot ulen : Nat) (hread : nread ≤ PACKET_SIZE) (htot : tot < 2 ^ 16)
    (hulen : ulen < 2 ^ 16) :
    (∀ datagram stack, (datagram.take PACKET_SIZE).length = nread →
        totLen (loaded (datagram.take PACKET_SIZE) stack) = tot →
        udpLen (loaded (datagram.take PACKET_SIZE) stack) = ulen →
        Bounded (datagram.take PACKET_SIZE) (loaded (datagram.take PACKET_SIZE) stack)
          (receivePacket (some datagram) stack)) ↔
      nread < IPHDR_SIZE + UDPHDR_SIZE ∨ nread < tot ∨ LengthsFit nread tot ulen := by
  constructor
  · intro h
    by_contra hlengths
    rw [not_or, not_or, not_lt, not_lt] at hlengths
    obtain ⟨hheaders, htot', hfit⟩ := hlengths
    have htake : (forged nread tot ulen).take PACKET_SIZE = forged nread tot ulen :=
      take_of_length_le (by rw [forged, length_zeroDatagram hheaders]; exact hread)
    have hbounded := h (forged nread tot ulen) (fun _ => 0)
    have hfits := Bounded.lengthsFit (receivePacket_forged hread hheaders htot' : _ = some _)
      (hbounded (by rw [htake]; exact length_zeroDatagram hheaders)
        (by rw [htake]; exact totLen_zeroDatagram htot)
        (by rw [htake]; exact udpLen_zeroDatagram hulen))
    rw [htake] at hfits
    unfold forged at hfits
    rw [length_zeroDatagram hheaders, totLen_zeroDatagram htot, udpLen_zeroDatagram hulen] at hfits
    exact hfit hfits
  · rintro hlengths datagram stack rfl rfl rfl
    refine bounded_of_lengthsFit fun r hr => ?_
    have hvalid := isValid_lengths (receivePacket_eq_some_iff.mp hr).1.1
    rcases hlengths with h | h | h
    · omega
    · omega
    · exact h

/-- A message of two bytes, of which two are copied. -/
theorem receive_bounded_message :
    receivePacket (some (forged 30 30 10)) (fun _ => 0) = some 2 ∧
      Bounded ((forged 30 30 10).take PACKET_SIZE)
        (loaded ((forged 30 30 10).take PACKET_SIZE) fun _ => 0)
        (receivePacket (some (forged 30 30 10)) fun _ => 0) :=
  ⟨by decide +kernel, (receive_bounded_iff 30 30 10 (by decide) (by decide) (by decide)).mpr
    (.inr (.inr ⟨by decide, by decide, by decide⟩)) (forged 30 30 10) (fun _ => 0)
    (by decide +kernel) (by decide +kernel) (by decide +kernel)⟩

/-- A datagram of headers only, whose UDP header announces 65535 bytes. -/
def oversized : List UInt8 :=
  [69, 0, 0, 28, 0, 0, 0, 0, 64, 17, 112, 209, 10, 0, 0, 1, 255, 255, 255, 255] ++
    [0, 67, 0, 68, 255, 255, 245, 102]

/-- It passes both checksums, and 65527 bytes are copied into a message of 1260. -/
theorem oversized_copied :
    receivePacket (some oversized) (fun _ => 0) = some 65527 ∧ DHCP_MSG_SIZE < 65527 ∧
      ¬ Bounded (oversized.take PACKET_SIZE) (loaded (oversized.take PACKET_SIZE) fun _ => 0)
        (receivePacket (some oversized) fun _ => 0) := by
  have hr : receivePacket (some oversized) (fun _ => 0) = some 65527 := by decide +kernel
  refine ⟨hr, by decide, ?_⟩
  intro h
  have := (h.size 65527 hr).2
  exact absurd this (by decide)

end SystemCore.Libnetutils
