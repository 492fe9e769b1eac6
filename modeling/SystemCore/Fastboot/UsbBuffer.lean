import SystemCore.Lib.Runs

/-!
# The buffer in front of the USB transfers of fastboot

`fb_download_data_sparse_write` passes its data on in multiples of `USB_BUF_SIZE` and keeps the
rest in a static buffer for the next call; `fb_download_data_sparse_flush` sends what is left.
What has been sent, with what the buffer holds behind it, is at all times what has been written.
-/
namespace SystemCore.Fastboot

open Lib.Runs List

def USB_BUF_SIZE : Int := 1024

/-- Why a call returns -1, or what it must not do. -/
inductive Failure where
  | transfer
  | usbBufNotEmpty
  | tooMuchLeft
  | outOfBounds
  deriving DecidableEq, Repr

/-- The static variables, and the transfers made so far. -/
structure Usb where
  usbBuf : List UInt8
  usbBufLen : Int
  sent : List (List UInt8)
  deriving DecidableEq, Repr

/-- What `usb_write` returns, after the transfers made before. -/
abbrev UsbWrite := List (List UInt8) → List UInt8 → Int

def Succeeds (usbWrite : UsbWrite) : Prop := ∀ before data, usbWrite before data = data.length

/-- `_command_data`; a short transfer fails as well. -/
def commandData (usbWrite : UsbWrite) (s : Usb) (data : List UInt8) : Except Failure Usb :=
  if usbWrite s.sent data = data.length then .ok { s with sent := s.sent ++ [data] }
  else .error .transfer

/-- `memcpy(usb_buf + offset, data, n)`. -/
def memcpy (s : Usb) (offset : Int) (data : List UInt8) (n : Int) : Except Failure Usb :=
  if 0 ≤ offset ∧ 0 ≤ n ∧ n ≤ data.length ∧ offset + n ≤ s.usbBuf.length then
    .ok { s with usbBuf := s.usbBuf.take offset.toNat ++ data.take n.toNat ++
      s.usbBuf.drop (offset + n).toNat }
  else .error .outOfBounds

/-- The first part of a write: the buffer is filled up, if it holds something. -/
def fillUp (s : Usb) (data : List UInt8) : Except Failure (Usb × List UInt8) :=
  if s.usbBufLen ≠ 0 then do
    let toWrite := min (USB_BUF_SIZE - s.usbBufLen) data.length
    let s ← memcpy s s.usbBufLen data toWrite
    return ({ s with usbBufLen := s.usbBufLen + toWrite }, data.drop toWrite.toNat)
  else return (s, data)

/-- The second part: a full buffer is sent. -/
def sendFull (usbWrite : UsbWrite) (s : Usb) : Except Failure Usb :=
  if s.usbBufLen = USB_BUF_SIZE then do
    let s ← commandData usbWrite s (s.usbBuf.take USB_BUF_SIZE.toNat)
    return { s with usbBufLen := 0 }
  else return s

/-- The third part: whole buffers are sent from the data itself. -/
def sendDirect (usbWrite : UsbWrite) (s : Usb) (data : List UInt8) :
    Except Failure (Usb × List UInt8) :=
  if (data.length : Int) > USB_BUF_SIZE then
    if s.usbBufLen > 0 then .error .usbBufNotEmpty
    else do
      let toWrite := (data.length : Int) - data.length % USB_BUF_SIZE
      let s ← commandData usbWrite s (data.take toWrite.toNat)
      return (s, data.drop toWrite.toNat)
  else return (s, data)

/-- The last part: the rest is kept. -/
def keepRest (s : Usb) (data : List UInt8) : Except Failure Usb :=
  if (data.length : Int) > 0 then
    if (data.length : Int) > USB_BUF_SIZE then .error .tooMuchLeft
    else do
      let s ← memcpy s 0 data data.length
      return { s with usbBufLen := data.length }
  else return s

def fbDownloadDataSparseWrite (usbWrite : UsbWrite) (s : Usb) (data : List UInt8) :
    Except Failure Usb := do
  let (s, data) ← fillUp s data
  let s ← sendFull usbWrite s
  let (s, data) ← sendDirect usbWrite s data
  keepRest s data

def fbDownloadDataSparseFlush (usbWrite : UsbWrite) (s : Usb) : Except Failure Usb :=
  if s.usbBufLen > 0 then do
    let s ← commandData usbWrite s (s.usbBuf.take s.usbBufLen.toNat)
    return { s with usbBufLen := 0 }
  else return s

def Usb.start (bytes : List UInt8) : Usb := ⟨bytes, 0, []⟩

/-! ## What the buffer holds -/

/-- The first `n` bytes of the buffer have not been sent, and the transfers were whole buffers;
with these bytes they make up what was written. -/
structure Carries (s : Usb) (n : Nat) (written : List UInt8) : Prop where
  size : s.usbBuf.length = 1024
  len : s.usbBufLen = n
  le : n ≤ 1024
  whole : ∀ t ∈ s.sent, 0 < t.length ∧ 1024 ∣ t.length
  bytes : s.sent.flatten ++ s.usbBuf.take n = written

section Parts

variable {usbWrite : UsbWrite} {s : Usb} {n : Nat} {written data : List UInt8}
  (hu : Succeeds usbWrite) (h : Carries s n written)

include hu in
theorem commandData_ok (s : Usb) (data : List UInt8) :
    commandData usbWrite s data = .ok { s with sent := s.sent ++ [data] } :=
  if_pos (hu s.sent data)

/-- A copy inside the buffer puts the data behind the bytes in front of it. -/
theorem memcpy_ok {k : Nat} (hn : n ≤ 1024) (hsize : s.usbBuf.length = 1024) (hk : k ≤ data.length)
    (hroom : n + k ≤ 1024) :
    ∃ buf, memcpy s n data k = .ok { s with usbBuf := buf } ∧ buf.length = 1024 ∧
      buf.take (n + k) = s.usbBuf.take n ++ data.take k := by
  refine ⟨s.usbBuf.take n ++ data.take k ++ s.usbBuf.drop (n + k), ?_, ?_, ?_⟩
  · have hcond : 0 ≤ (n : Int) ∧ 0 ≤ (k : Int) ∧ (k : Int) ≤ data.length ∧
        (n : Int) + k ≤ s.usbBuf.length := by omega
    rw [memcpy, if_pos hcond]
    rfl
  · simp only [length_append, length_take, length_drop, hsize]
    omega
  · apply take_left'
    simp only [length_append, length_take, hsize]
    omega

include h in
/-- The buffer is filled up or takes in all the data. -/
theorem fillUp_ok (data : List UInt8) :
    ∃ s' m rest, fillUp s data = .ok (s', rest) ∧ Carries s' m (written ++ data.take (m - n)) ∧
      rest = data.drop (m - n) ∧ n ≤ m ∧ (rest = [] ∨ m = 1024 ∨ m = 0) := by
  by_cases hz : n = 0
  · refine ⟨s, n, data, ?_, ?_, ?_, Nat.le_refl n, .inr (.inr hz)⟩
    · have hlen : s.usbBufLen = 0 := by rw [h.len, hz]; rfl
      exact if_neg (not_not.mpr hlen)
    · simpa using h
    · simp
  · have hlen : s.usbBufLen ≠ 0 := by
      rw [h.len]
      omega
    have hmin : min (USB_BUF_SIZE - s.usbBufLen) (data.length : Int) =
        ((min (1024 - n) data.length : Nat) : Int) := by
      have := h.le
      rw [h.len, USB_BUF_SIZE]
      omega
    obtain ⟨buf, hcopy, hsize, htake⟩ := memcpy_ok (s := s) (k := min (1024 - n) data.length) h.le
      h.size (Nat.min_le_right _ _) (by have := h.le; omega)
    refine ⟨{ s with usbBuf := buf, usbBufLen := s.usbBufLen + (min (1024 - n) data.length : Nat) },
      n + min (1024 - n) data.length, data.drop (min (1024 - n) data.length), ?_, ?_, ?_,
      Nat.le_add_right _ _, ?_⟩
    · rw [← h.len] at hcopy
      simp only [fillUp, if_pos hlen, hmin, hcopy, bind, Except.bind]
      rfl
    · exact {
        size := hsize
        len := by rw [h.len]; push_cast; rfl
        le := by have := h.le; omega
        whole := h.whole
        bytes := by
          rw [Nat.add_sub_cancel_left, htake, ← append_assoc, h.bytes] }
    · rw [Nat.add_sub_cancel_left]
    · rcases Nat.le_total data.length (1024 - n) with hle | hle
      · exact .inl (by rw [Nat.min_eq_right hle, drop_length])
      · exact .inr (.inl (by have := h.le; omega))

include hu h in
/-- A full buffer is sent, and is empty then. -/
theorem sendFull_ok :
    ∃ s' m, sendFull usbWrite s = .ok s' ∧ Carries s' m written ∧
      (n = 1024 → m = 0) ∧ (n ≠ 1024 → m = n) := by
  by_cases hfull : n = 1024
  · have hlen : s.usbBufLen = USB_BUF_SIZE := by rw [h.len, hfull]; rfl
    refine ⟨{ s with sent := s.sent ++ [s.usbBuf.take USB_BUF_SIZE.toNat], usbBufLen := 0 }, 0, ?_, ?_,
      fun _ => rfl, fun hne => absurd hfull hne⟩
    · simp only [sendFull, if_pos hlen, commandData_ok hu, bind, Except.bind]
      rfl
    · have hbuf : s.usbBuf.take USB_BUF_SIZE.toNat = s.usbBuf.take n := by rw [hfull]; rfl
      refine ⟨h.size, rfl, Nat.zero_le _, fun t ht => ?_, ?_⟩
      · rcases mem_append.mp ht with ht | ht
        · exact h.whole t ht
        · rw [mem_singleton.mp ht, hbuf, length_take, h.size, hfull]
          decide
      · rw [hbuf, flatten_append, flatten_singleton, take_zero, append_nil]
        exact h.bytes
  · have hlen : s.usbBufLen ≠ USB_BUF_SIZE := by
      rw [h.len, USB_BUF_SIZE]
      omega
    exact ⟨s, n, if_neg hlen, h, fun heq => absurd heq hfull, fun _ => rfl⟩

/-- From an empty buffer whole buffers are sent, and at most one is left over. -/
theorem sendDirect_ok (data : List UInt8) (hu : Succeeds usbWrite) (h : Carries s n written)
    (hempty : 1024 < data.length → n = 0) :
    ∃ s' k, sendDirect usbWrite s data = .ok (s', data.drop k) ∧
      Carries s' n (written ++ data.take k) ∧ (data.drop k).length ≤ 1024 ∧
      (data.length ≤ 1024 → k = 0) := by
  by_cases hlong : 1024 < data.length
  · have hn := hempty hlong
    subst hn
    have hgt : (data.length : Int) > USB_BUF_SIZE := by
      rw [USB_BUF_SIZE]
      omega
    have hlen : ¬ s.usbBufLen > 0 := by
      rw [h.len]
      decide
    have hround : ((data.length : Int) - data.length % USB_BUF_SIZE).toNat =
        data.length - data.length % 1024 := by
      rw [USB_BUF_SIZE]
      omega
    have hsent : (data.take (data.length - data.length % 1024)).length =
        data.length - data.length % 1024 := by
      rw [length_take]
      omega
    refine ⟨{ s with sent := s.sent ++ [data.take (data.length - data.length % 1024)] },
      data.length - data.length % 1024, ?_, ?_, ?_, fun hle => absurd hlong (Nat.not_lt.mpr hle)⟩
    · simp only [sendDirect, if_pos hgt, if_neg hlen, hround, commandData_ok hu, bind, Except.bind]
      rfl
    · refine ⟨h.size, h.len, h.le, fun t ht => ?_, ?_⟩
      · rcases mem_append.mp ht with ht | ht
        · exact h.whole t ht
        · rw [mem_singleton.mp ht, hsent]
          exact ⟨by omega, Nat.dvd_sub_mod _⟩
      · have hbytes := h.bytes
        rw [take_zero, append_nil] at hbytes
        rw [flatten_append, flatten_singleton, take_zero, append_nil, hbytes]
    · rw [length_drop]
      omega
  · have hle : ¬ (data.length : Int) > USB_BUF_SIZE := by
      rw [USB_BUF_SIZE]
      omega
    refine ⟨s, 0, ?_, ?_, ?_, fun _ => rfl⟩
    · rw [sendDirect, if_neg hle, drop_zero]
      rfl
    · simpa using h
    · rw [drop_zero]
      exact Nat.le_of_not_lt hlong

include h in
/-- What is left fits into the buffer, which is empty if anything is left. -/
theorem keepRest_ok (hle : data.length ≤ 1024) (hempty : data ≠ [] → n = 0) :
    ∃ s' m, keepRest s data = .ok s' ∧ Carries s' m (written ++ data) := by
  by_cases hnil : data = []
  · subst hnil
    refine ⟨s, n, rfl, ?_⟩
    rw [append_nil]
    exact h
  · have hn := hempty hnil
    subst hn
    have hpos := length_pos_iff.mpr hnil
    have hgt : (data.length : Int) > 0 := by omega
    have hfit : ¬ (data.length : Int) > USB_BUF_SIZE := by
      rw [USB_BUF_SIZE]
      omega
    obtain ⟨buf, hcopy, hsize, htake⟩ := memcpy_ok (s := s) (n := 0) (k := data.length)
      (Nat.zero_le _) h.size (Nat.le_refl _) (by omega)
    rw [Nat.zero_add, take_zero, nil_append, take_length] at htake
    refine ⟨{ s with usbBuf := buf, usbBufLen := data.length }, data.length, ?_, ?_⟩
    · have hcopy : memcpy s 0 data data.length = .ok { s with usbBuf := buf } := hcopy
      simp only [keepRest, if_pos hgt, if_neg hfit, hcopy, bind, Except.bind]
      rfl
    · have hbytes := h.bytes
      rw [take_zero, append_nil] at hbytes
      exact ⟨hsize, rfl, hle, h.whole, by rw [htake, hbytes]⟩

/-! ## Calls -/

include hu h in
/-- One call: it returns, and the data is sent or kept. -/
theorem Carries.write (data : List UInt8) :
    ∃ s' m, fbDownloadDataSparseWrite usbWrite s data = .ok s' ∧
      Carries s' m (written ++ data) := by
  obtain ⟨s₁, m, rest, h₁, hc₁, rfl, hnm, hcases⟩ := fillUp_ok h data
  obtain ⟨s₂, m₂, h₂, hc₂, hsent, hkept⟩ := sendFull_ok hu hc₁
  -- whatever is left of the data finds the buffer empty
  have hempty : data.drop (m - n) ≠ [] → m₂ = 0 := by
    intro hne
    rcases hcases with hnil | hfull | hzero
    · exact absurd hnil hne
    · exact hsent hfull
    · rw [hkept (by omega), hzero]
  obtain ⟨s₃, k, h₃, hc₃, hle, -⟩ := sendDirect_ok (data.drop (m - n)) hu hc₂ (by
    intro hlong
    exact hempty (length_pos_iff.mp (by omega)))
  obtain ⟨s₄, m₄, h₄, hc₄⟩ := keepRest_ok hc₃ hle (by
    intro hne
    apply hempty
    intro hnil
    rw [hnil, drop_nil] at hne
    exact hne rfl)
  refine ⟨s₄, m₄, ?_, ?_⟩
  · simp only [fbDownloadDataSparseWrite, h₁, h₂, h₃, bind, Except.bind]
    exact h₄
  · have hsplit : written ++ data.take (m - n) ++ (data.drop (m - n)).take k ++
        (data.drop (m - n)).drop k = written ++ data := by
      rw [append_assoc, take_append_drop, append_assoc, take_append_drop]
    rw [← hsplit]
    exact hc₄

include hu h in
theorem Carries.writes (calls : List (List UInt8)) :
    ∃ s' m, run (fbDownloadDataSparseWrite usbWrite) s calls = .ok s' ∧
      Carries s' m (written ++ calls.flatten) := by
  induction calls generalizing s n written with
  | nil =>
    refine ⟨s, n, rfl, ?_⟩
    rw [flatten_nil, append_nil]
    exact h
  | cons data calls ih =>
    obtain ⟨s₁, m, h₁, hc⟩ := h.write hu data
    obtain ⟨s', m', hrun, hc'⟩ := ih hc
    refine ⟨s', m', ?_, ?_⟩
    · rw [run_cons_ok h₁, hrun]
    · rw [flatten_cons, ← append_assoc]
      exact hc'

include hu h in
/-- The flush sends what the buffer holds. -/
theorem Carries.flush :
    ∃ s', fbDownloadDataSparseFlush usbWrite s = .ok s' ∧ s'.usbBufLen = 0 ∧
      s'.sent.flatten = written ∧ (s'.sent = s.sent ∨ ∃ last, s'.sent = s.sent ++ [last]) := by
  by_cases hpos : s.usbBufLen > 0
  · refine ⟨{ s with sent := s.sent ++ [s.usbBuf.take s.usbBufLen.toNat], usbBufLen := 0 }, ?_, rfl,
      ?_, .inr ⟨_, rfl⟩⟩
    · simp only [fbDownloadDataSparseFlush, if_pos hpos, commandData_ok hu, bind, Except.bind]
      rfl
    · rw [flatten_append, flatten_singleton, h.len, Int.toNat_natCast]
      exact h.bytes
  · have hn : n = 0 := by
      rw [h.len] at hpos
      omega
    subst hn
    refine ⟨s, if_neg hpos, h.len, ?_, .inl rfl⟩
    have hbytes := h.bytes
    rwa [take_zero, append_nil] at hbytes

end Parts

/-- From an empty buffer, with every transfer succeeding, any writes return, with the length of
the buffer in its range behind each of them and only whole buffers sent; the flush behind them
returns too, and the transfers are then what was written. -/
theorem sparse_writes_lossless (usbWrite : UsbWrite) (hu : Succeeds usbWrite) (bytes : List UInt8)
    (hsize : bytes.length = 1024) (calls : List (List UInt8)) :
    (∀ k, ∃ s, run (fbDownloadDataSparseWrite usbWrite) (Usb.start bytes) (calls.take k) = .ok s ∧
      0 ≤ s.usbBufLen ∧ s.usbBufLen ≤ USB_BUF_SIZE) ∧
    ∃ s s', run (fbDownloadDataSparseWrite usbWrite) (Usb.start bytes) calls = .ok s ∧
      fbDownloadDataSparseFlush usbWrite s = .ok s' ∧ s'.usbBufLen = 0 ∧
      s'.sent.flatten = calls.flatten ∧
      (∀ t ∈ s.sent, 0 < t.length ∧ 1024 ∣ t.length) ∧
      (s'.sent = s.sent ∨ ∃ last, s'.sent = s.sent ++ [last]) := by
  have hstart : Carries (Usb.start bytes) 0 [] :=
    ⟨hsize, rfl, Nat.zero_le _, fun t ht => absurd ht not_mem_nil, rfl⟩
  constructor
  · intro k
    obtain ⟨s, m, hrun, hc⟩ := hstart.writes hu (calls.take k)
    refine ⟨s, hrun, ?_, ?_⟩
    · rw [hc.len]
      exact Int.natCast_nonneg m
    · have := hc.le
      rw [hc.len, USB_BUF_SIZE]
      omega
  · obtain ⟨s, m, hrun, hc⟩ := hstart.writes hu calls
    obtain ⟨s', hflush, hzero, hsent, hlast⟩ := hc.flush hu
    exact ⟨s, s', hrun, hflush, hzero, hsent, hc.whole, hlast⟩

/-- Two writes, and an empty one between them: the second fills the buffer and goes on behind
it. -/
theorem sparse_writes_lossless_two :
    ∃ s s', run (fbDownloadDataSparseWrite fun _ data => data.length)
        (Usb.start (replicate 1024 0)) [replicate 1000 1, [], replicate 2000 2] = .ok s ∧
      fbDownloadDataSparseFlush (fun _ data => data.length) s = .ok s' ∧
      (∀ t ∈ s.sent, 0 < t.length ∧ 1024 ∣ t.length) ∧
      s'.sent.flatten = replicate 1000 1 ++ replicate 2000 2 := by
  obtain ⟨-, s, s', hrun, hflush, -, hsent, hwhole, -⟩ := sparse_writes_lossless
    (fun _ data => data.length) (fun _ _ => rfl) (replicate 1024 0)
    (length_replicate ..) [replicate 1000 1, [], replicate 2000 2]
  rw [flatten_cons, flatten_cons, nil_append, flatten_singleton] at hsent
  exact ⟨s, s', hrun, hflush, hwhole, hsent⟩

end SystemCore.Fastboot
