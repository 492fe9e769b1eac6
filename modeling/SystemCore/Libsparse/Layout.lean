import SystemCore.Libsparse.SparseFile
import Mathlib.Data.List.Pairwise

/-!
# Sorted block lists

A list is sorted when its nodes come at rising block numbers and every node ends at or
before the block of the next one. The blocks of a file are those of its length, rounded
up.
-/
namespace SystemCore.Libsparse

open Lib.CeilDiv

/-- The block number behind the last block of a node. -/
def endBlock (bs : UInt32) (bb : BackedBlock) : Nat := bb.block.toNat + bb.len.toNat ⌈/⌉ bs.toNat

def Sorted (bs : UInt32) (nodes : List BackedBlock) : Prop :=
  nodes.Pairwise fun a b => a.block < b.block ∧ endBlock bs a ≤ b.block.toNat

instance (bs : UInt32) (nodes : List BackedBlock) : Decidable (Sorted bs nodes) :=
  inferInstanceAs (Decidable (nodes.Pairwise _))

def SparseFile.blocks (s : SparseFile) : Nat := s.len.toNat ⌈/⌉ s.blockSize.toNat

def SparseFile.InRange (s : SparseFile) : Prop :=
  ∀ bb ∈ s.list.dataBlocks, endBlock s.blockSize bb ≤ s.blocks

/-- The loops over a list compute the end of a node in 32 bits, where rounding up can
wrap. -/
theorem nextBlock_le {bs : UInt32} (hbs : 0 < bs.toNat) (bb : BackedBlock) :
    (nextBlock bs bb).toNat ≤ endBlock bs bb := by
  unfold nextBlock endBlock
  exact (Nat.mod_le _ _).trans (Nat.add_le_add_left (divRoundUp_le hbs) _)

section Cons

variable {bs : UInt32} {bb : BackedBlock} {rest : List BackedBlock}

theorem Sorted.tail (h : Sorted bs (bb :: rest)) : Sorted bs rest := (List.pairwise_cons.mp h).2

theorem Sorted.head_lt (h : Sorted bs (bb :: rest)) : ∀ b ∈ rest, bb.block < b.block :=
  fun b hb => ((List.pairwise_cons.mp h).1 b hb).1

theorem Sorted.nextBlock_le (hbs : 0 < bs.toNat) (h : Sorted bs (bb :: rest)) :
    ∀ b ∈ rest, nextBlock bs bb ≤ b.block :=
  fun b hb => (Libsparse.nextBlock_le hbs bb).trans ((List.pairwise_cons.mp h).1 b hb).2

/-- Only the end of the last node can wrap. -/
theorem Sorted.nextBlock_toNat (hbs : 0 < bs.toNat) (h : Sorted bs (bb :: rest)) :
    ∀ b ∈ rest, bb.block.toNat + (divRoundUp bb.len bs).toNat ≤ b.block.toNat ∧
      (nextBlock bs bb).toNat = bb.block.toNat + (divRoundUp bb.len bs).toNat := by
  intro b hb
  have hle : bb.block.toNat + (divRoundUp bb.len bs).toNat ≤ b.block.toNat :=
    (Nat.add_le_add_left (divRoundUp_le hbs) _).trans ((List.pairwise_cons.mp h).1 b hb).2
  refine ⟨hle, ?_⟩
  unfold nextBlock
  exact Nat.mod_eq_of_lt (hle.trans_lt b.block.toNat_lt)

end Cons

end SystemCore.Libsparse
