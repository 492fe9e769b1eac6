import SystemCore.Libsparse.SparseFile

/-!
# The bytes behind a node

Writing a node either fails before anything is written, or writes one chunk of the
node's length. `readable` tells the two apart, and `content` is what the chunk is made
of.
-/
namespace SystemCore.Libsparse

/-- What a node is written from. -/
inductive Content where
  | data (bytes : Nat → UInt8)
  | fill (val : UInt32)

def zeroEnv : Env := ⟨fun _ => 0, fun _ => none, fun _ => none⟩

/-- The bytes of a file from an offset on, zeros when there is none. -/
def bytesFrom (file : Option (Nat → UInt8)) (offset : Int) : Nat → UInt8 := fun i =>
  match file with
  | none => 0
  | some bytes => bytes (offset.toNat + i)

def content (env : Env) (bb : BackedBlock) : Content :=
  match bb.backing with
  | .data p => .data fun i => env.mem (p + i)
  | .file _ path offset => .data (bytesFrom (env.paths path) offset)
  | .fd fd offset => .data (bytesFrom (env.fds fd) offset)
  | .fill v => .fill v

/-- `mmap64` maps `len` bytes of the file at `offset`, with what lies before them in
their page. -/
def mappable (file : Option (Nat → UInt8)) (len : UInt32) (offset : Int) : Bool :=
  file.isSome && decide (0 ≤ offset ∧ 0 < toInt (len + lowWord (offset % 4096)))

def readable (env : Env) (bb : BackedBlock) : Bool :=
  match bb.backing with
  | .data _ => true
  | .file _ path offset => mappable (env.paths path) bb.len offset
  | .fd fd offset => mappable (env.fds fd) bb.len offset
  | .fill _ => true

section Writing

variable {σ : Type} (ops : OutputFileOps σ) (out : OutputFile σ)

def writeContent (len : UInt32) : Content → Int × OutputFile σ
  | .data bytes => writeDataChunk ops out len bytes
  | .fill v => writeFillChunk ops out len v

variable {file : Option (Nat → UInt8)} {len : UInt32} {offset : Int}

theorem mmap64_of_mappable (h : mappable file len offset = true) :
    mmap64 file (toInt (len + lowWord (offset % 4096))) (offset - offset % 4096) =
      .ok fun i => bytesFrom file (offset - offset % 4096) i := by
  cases file with
  | none => simp [mappable] at h
  | some bytes =>
    simp only [mappable, Option.isSome_some, Bool.true_and, decide_eq_true_eq] at h
    obtain ⟨ho, hs⟩ := h
    simp only [mmap64, bytesFrom]
    rw [if_neg (by omega), if_neg (by omega)]

theorem writeFdChunk_of_mappable (h : mappable file len offset = true) :
    writeFdChunk ops out len file offset =
      writeDataChunk ops out len (bytesFrom file offset) := by
  have ho : 0 ≤ offset := by
    simp only [mappable, Bool.and_eq_true, decide_eq_true_eq] at h
    exact h.2.1
  have hb : (fun i => bytesFrom file (offset - offset % 4096) ((offset % 4096).toNat + i)) =
      bytesFrom file offset := by
    funext i
    unfold bytesFrom
    cases file with
    | none => rfl
    | some bytes =>
      dsimp only
      congr 1
      omega
  simp only [writeFdChunk, mmap64_of_mappable h, hb]

theorem writeFdChunk_refused (h : mappable file len offset = false) :
    ∃ ret < 0, writeFdChunk ops out len file offset = (ret, out) := by
  unfold writeFdChunk mmap64
  cases file with
  | none => exact ⟨-ebadf, by decide, rfl⟩
  | some bytes =>
    simp only [mappable, Option.isSome_some, Bool.true_and, decide_eq_false_iff_not] at h
    by_cases h1 : toInt (len + lowWord (offset % 4096)) < 0
    · refine ⟨-enomem, by decide, ?_⟩
      simp only [if_pos h1]
    · refine ⟨-einval, by decide, ?_⟩
      simp only [if_neg h1]
      rw [if_pos (by omega)]

theorem writeFileChunk_of_mappable (h : mappable file len offset = true) :
    writeFileChunk ops out len file offset =
      writeDataChunk ops out len (bytesFrom file offset) := by
  cases file with
  | none => simp [mappable] at h
  | some bytes => exact writeFdChunk_of_mappable ops out h

theorem writeFileChunk_refused (h : mappable file len offset = false) :
    ∃ ret < 0, writeFileChunk ops out len file offset = (ret, out) := by
  cases file with
  | none => exact ⟨-enoent, by decide, rfl⟩
  | some bytes => exact writeFdChunk_refused ops out h

variable {env : Env} {bb : BackedBlock}

/-- A node that can be read is written as one chunk. -/
theorem sparseFileWriteBlock_of_readable (h : readable env bb = true) :
    sparseFileWriteBlock env ops out bb = writeContent ops out bb.len (content env bb) := by
  unfold sparseFileWriteBlock content
  unfold readable at h
  cases hb : bb.backing with
  | data p => rfl
  | file f path offset => rw [hb] at h; exact writeFileChunk_of_mappable ops out h
  | fd fd offset => rw [hb] at h; exact writeFdChunk_of_mappable ops out h
  | fill v => rfl

/-- A node that cannot be read is not written at all. -/
theorem sparseFileWriteBlock_refused (h : readable env bb = false) :
    ∃ ret < 0, sparseFileWriteBlock env ops out bb = (ret, out) := by
  unfold sparseFileWriteBlock
  unfold readable at h
  cases hb : bb.backing with
  | data p => rw [hb] at h; cases h
  | file f path offset => rw [hb] at h; exact writeFileChunk_refused ops out h
  | fd fd offset => rw [hb] at h; exact writeFdChunk_refused ops out h
  | fill v => rw [hb] at h; cases h

end Writing

end SystemCore.Libsparse
