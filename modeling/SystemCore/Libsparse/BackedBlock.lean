import SystemCore.Libsparse.Words

/-!
# The block list of backed_block.c

A list is kept as its nodes in the order of their `next` pointers. Every node
carries its address, so that `last_used` and the arguments of `backed_block_split`
and `backed_block_list_move` can be told apart from equal nodes, and so that a
pointer to a freed node is one whose address is no longer in the list. Addresses
are never handed out twice. Allocation does not fail. A pointer argument that is no
node of its list stops the call.
-/
namespace SystemCore.Libsparse

/-- What stops a C execution for good. -/
inductive Fault where
  | assertion
  | divByZero
  | nullDeref
  | useAfterFree
  | badPointer
  | overrun
  | hang
  deriving DecidableEq, Repr

inductive BackedBlockType where
  | data
  | file
  | fd
  | fill
  deriving DecidableEq, Repr

/-- The union of `struct backed_block`. A file name is the address that `strdup`
returned together with the text behind it. -/
inductive Backing where
  | data (data : Nat)
  | file (filename : Nat) (path : String) (offset : Int)
  | fd (fd : Int) (offset : Int)
  | fill (val : UInt32)
  deriving DecidableEq, Repr

def Backing.type : Backing → BackedBlockType
  | .data _ => .data
  | .file _ _ _ => .file
  | .fd _ _ => .fd
  | .fill _ => .fill

/-- `struct backed_block`, at the address `addr`. -/
structure BackedBlock where
  addr : Nat
  block : UInt32
  len : UInt32
  backing : Backing
  deriving DecidableEq, Repr

structure BackedBlockList where
  dataBlocks : List BackedBlock
  lastUsed : Option Nat
  blockSize : UInt32
  deriving DecidableEq, Repr

def backedBlockListNew (blockSize : UInt32) : BackedBlockList := ⟨[], none, blockSize⟩

/-- The `switch` of `merge_bb`: whether two adjacent nodes of one type go together.
Data nodes never do, and file names are compared as pointers. -/
def compatible (a b : BackedBlock) : Bool :=
  match a.backing, b.backing with
  | .fill v, .fill w => v == w
  | .file p _ o, .file q _ o' => p == q && o + a.len.toNat == o'
  | .fd d o, .fd e o' => d == e && o + a.len.toNat == o'
  | _, _ => false

/-- `a` with the length of `b` added, in 32 bits. -/
def BackedBlock.absorb (a b : BackedBlock) : BackedBlock := { a with len := a.len + b.len }

/-- `merge_bb` on two nodes that exist: `a` with `b` merged into it, or nothing
where the function returns `-EINVAL`. -/
def mergeBb (blockSize : UInt32) (a b : BackedBlock) : Except Fault (Option BackedBlock) :=
  if ¬ a.block < b.block then .error .assertion
  else if a.backing.type ≠ b.backing.type then .ok none
  else if blockSize = 0 then .error .divByZero
  else if a.block + a.len / blockSize ≠ b.block then .ok none
  else if compatible a b then .ok (some (a.absorb b))
  else .ok none

/-- A node of a list, with the nodes before it and the nodes from `next` on. -/
structure Cursor where
  before : List BackedBlock
  bb : BackedBlock
  next : List BackedBlock

def Cursor.nodes (c : Cursor) : List BackedBlock := c.before ++ c.bb :: c.next

def cursorAt (nodes : List BackedBlock) (i : Nat) : Option Cursor :=
  match nodes.drop i with
  | [] => none
  | bb :: next => some ⟨nodes.take i, bb, next⟩

/-- What `queue_bb` meets behind a `last_used` whose node has been freed: a trap,
or some node that is in the list. -/
inductive FreedRead where
  | trap
  | live (pick : List BackedBlock → BackedBlock → Nat)

/-- Start at `last_used` when the new block number is higher, else at the head. -/
def startOr (head : Cursor) (newBb : BackedBlock) : Option Cursor → Cursor
  | some c => if c.bb.block < newBb.block then c else head
  | none => head

/-- Where `queue_bb` starts its search in the list `hd :: tl`. -/
def searchStart (freed : FreedRead) (lastUsed : Option Nat) (newBb hd : BackedBlock)
    (tl : List BackedBlock) : Except Fault Cursor :=
  let nodes := hd :: tl
  match lastUsed with
  | none => .ok ⟨[], hd, tl⟩
  | some a =>
    match cursorAt nodes (nodes.findIdx (fun n => n.addr == a)) with
    | some c => .ok (startOr ⟨[], hd, tl⟩ newBb (some c))
    | none =>
      match freed with
      | .trap => .error .useAfterFree
      | .live pick => .ok (startOr ⟨[], hd, tl⟩ newBb (cursorAt nodes (pick nodes newBb)))

/-- `for (; bb->next && bb->next->block < new_bb->block; bb = bb->next)`. -/
def seek (newBb : BackedBlock) : List BackedBlock → BackedBlock → List BackedBlock → Cursor
  | before, bb, [] => ⟨before, bb, []⟩
  | before, bb, n :: rest =>
    if n.block < newBb.block then seek newBb (before ++ [bb]) n rest
    else ⟨before, bb, n :: rest⟩

/-- The node behind which `queue_bb` links the new one; none when it becomes the
head. -/
def searchStop (freed : FreedRead) (bbl : BackedBlockList) (newBb : BackedBlock) :
    Except Fault (Option Cursor) :=
  match bbl.dataBlocks with
  | [] => .ok none
  | hd :: tl =>
    if newBb.block < hd.block then .ok none
    else
      match searchStart freed bbl.lastUsed newBb hd tl with
      | .error e => .error e
      | .ok c => .ok (some (seek newBb c.before c.bb c.next))

/-- `merge_bb(bbl, bb, new_bb)`, with the nodes behind `new_bb`. -/
def mergeInto (blockSize : UInt32) (bb newBb : BackedBlock) (next : List BackedBlock) :
    Except Fault (List BackedBlock) :=
  match mergeBb blockSize bb newBb with
  | .error e => .error e
  | .ok none => .ok (bb :: newBb :: next)
  | .ok (some m) => .ok (m :: next)

/-- The two merges of `queue_bb`, once `new_bb` stands between `bb` and `next`. -/
def linkAndMerge (blockSize : UInt32) (bb newBb : BackedBlock) :
    List BackedBlock → Except Fault (List BackedBlock)
  | [] => mergeInto blockSize bb newBb []
  | n :: rest =>
    match mergeBb blockSize newBb n with
    | .error e => .error e
    | .ok none => mergeInto blockSize bb newBb (n :: rest)
    | .ok (some m) => mergeInto blockSize bb m rest

/-- `queue_bb`. Only an insertion behind some node sets `last_used`. -/
def queueBb (freed : FreedRead) (bbl : BackedBlockList) (newBb : BackedBlock) :
    Except Fault BackedBlockList :=
  match searchStop freed bbl newBb with
  | .error e => .error e
  | .ok none => .ok { bbl with dataBlocks := newBb :: bbl.dataBlocks }
  | .ok (some c) =>
    match linkAndMerge bbl.blockSize c.bb newBb c.next with
    | .error e => .error e
    | .ok nodes =>
      .ok { bbl with dataBlocks := c.before ++ nodes, lastUsed := some newBb.addr }

section Adding

variable (freed : FreedRead) (bbl : BackedBlockList) (addr : Nat)

def backedBlockAddFill (fillVal len block : UInt32) : Except Fault BackedBlockList :=
  queueBb freed bbl ⟨addr, block, len, .fill fillVal⟩

def backedBlockAddData (data : Nat) (len block : UInt32) : Except Fault BackedBlockList :=
  queueBb freed bbl ⟨addr, block, len, .data data⟩

/-- The copy that `strdup` makes is named by the address of its node. -/
def backedBlockAddFile (filename : String) (offset : Int) (len block : UInt32) :
    Except Fault BackedBlockList :=
  queueBb freed bbl ⟨addr, block, len, .file addr filename offset⟩

def backedBlockAddFd (fd offset : Int) (len block : UInt32) : Except Fault BackedBlockList :=
  queueBb freed bbl ⟨addr, block, len, .fd fd offset⟩

end Adding

/-- The same bytes from `n` bytes further on, as `backed_block_split` sets them. -/
def Backing.advance (n : Nat) : Backing → Backing
  | .data p => .data (p + n)
  | .file f path o => .file f path (o + n)
  | .fd d o => .fd d (o + n)
  | .fill v => .fill v

/-- The nodes that `backed_block_split` leaves in the place of `bb`; a second one
is allocated at `addr`. -/
def splitBb (blockSize maxLen : UInt32) (addr : Nat) (bb : BackedBlock) : List BackedBlock :=
  let m := alignDown maxLen blockSize
  if bb.len ≤ m then [bb]
  else
    [{ bb with len := m },
      ⟨addr, bb.block + m / blockSize, bb.len - m, bb.backing.advance m.toNat⟩]

/-- `backed_block_split` on the node at address `bb`. -/
def backedBlockSplit (bbl : BackedBlockList) (bb : Nat) (maxLen : UInt32) (addr : Nat) :
    Except Fault BackedBlockList :=
  if bbl.blockSize = 0 then .error .divByZero
  else if bbl.dataBlocks.all (fun n => n.addr != bb) then .error .badPointer
  else .ok { bbl with dataBlocks := bbl.dataBlocks.flatMap fun n =>
    if n.addr = bb then splitBb bbl.blockSize maxLen addr n else [n] }

/-- The nodes in front of the one at address `start`. -/
def nodesBefore (nodes : List BackedBlock) : Option Nat → List BackedBlock
  | none => []
  | some s => nodes.takeWhile (fun n => n.addr != s)

/-- The nodes before `start`, from `start` through `end`, and behind `end`. A
missing `start` is the head and a missing `end` the last node; nothing when the
arguments are no such nodes. -/
def segment (nodes : List BackedBlock) (start stop : Option Nat) :
    Option (List BackedBlock × List BackedBlock × List BackedBlock) :=
  let before := nodesBefore nodes start
  match nodes.drop before.length, start with
  | [], none => some ([], [], [])
  | [], some _ => none
  | hd :: tl, _ =>
    match stop with
    | none => some (before, hd :: tl, [])
    | some e =>
      let body := nodesBefore (hd :: tl) (some e)
      match (hd :: tl).drop body.length with
      | [] => none
      | last :: after => some (before, body ++ [last], after)

/-- Link `seg` behind the first node whose successor is missing or higher. -/
def spliceAfter (start : UInt32) (seg : List BackedBlock) :
    List BackedBlock → List BackedBlock
  | [] => seg
  | [bb] => bb :: seg
  | bb :: n :: rest =>
    if start < n.block then bb :: (seg ++ n :: rest)
    else bb :: spliceAfter start seg (n :: rest)

/-- The half of `backed_block_list_move` that changes `from`: the nodes taken out,
and what stays. -/
def detach (src : BackedBlockList) (start stop : Option Nat) :
    Except Fault (List BackedBlock × BackedBlockList) :=
  match segment src.dataBlocks start stop with
  | none => .error .badPointer
  | some (_, [], _) => .ok ([], src)
  | some (before, seg, after) =>
    .ok (seg, { src with dataBlocks := before ++ after, lastUsed := none })

/-- The half of `backed_block_list_move` that changes `to`. -/
def attach (dst : BackedBlockList) : List BackedBlock → BackedBlockList
  | [] => dst
  | hd :: tl =>
    { dst with dataBlocks := spliceAfter hd.block (hd :: tl) dst.dataBlocks, lastUsed := none }

/-- `backed_block_list_move` between two lists: the new `from` and `to`. -/
def backedBlockListMove (src dst : BackedBlockList) (start stop : Option Nat) :
    Except Fault (BackedBlockList × BackedBlockList) :=
  match detach src start stop with
  | .error e => .error e
  | .ok (seg, src') => .ok (src', attach dst seg)

/-- A call of one of the four `backed_block_add_` functions. -/
inductive AddCall where
  | fill (fillVal len block : UInt32)
  | data (data : Nat) (len block : UInt32)
  | file (filename : String) (offset : Int) (len block : UInt32)
  | fd (fd offset : Int) (len block : UInt32)
  deriving DecidableEq, Repr

/-- Make the call, with the new node at `addr`. -/
def AddCall.run (freed : FreedRead) (bbl : BackedBlockList) (addr : Nat) :
    AddCall → Except Fault BackedBlockList
  | .fill v len block => backedBlockAddFill freed bbl addr v len block
  | .data p len block => backedBlockAddData freed bbl addr p len block
  | .file f o len block => backedBlockAddFile freed bbl addr f o len block
  | .fd d o len block => backedBlockAddFd freed bbl addr d o len block

/-- The node the call hands to `queue_bb`. -/
def AddCall.bb (addr : Nat) : AddCall → BackedBlock
  | .fill v len block => ⟨addr, block, len, .fill v⟩
  | .data p len block => ⟨addr, block, len, .data p⟩
  | .file f o len block => ⟨addr, block, len, .file addr f o⟩
  | .fd d o len block => ⟨addr, block, len, .fd d o⟩

theorem AddCall.run_eq (freed : FreedRead) (bbl : BackedBlockList) (addr : Nat) (c : AddCall) :
    c.run freed bbl addr = queueBb freed bbl (c.bb addr) := by
  cases c <;> rfl

@[simp] theorem AddCall.bb_addr (addr : Nat) (c : AddCall) : (c.bb addr).addr = addr := by
  cases c <;> rfl

end SystemCore.Libsparse
