import Xcoin.Lib.Runs
import Xcoin.Lib.StdMaps
import Xcoin.Blocks.Block

/-! The block index and the best tip: `add_to_chain`, `accept_block` and
`debug_chains`. The `BlockIndex` objects are numbered in the order of their `new`,
and none is ever freed. A height is an integer: the overflow of an `int` is undefined. -/

namespace Xcoin

open Lib.Runs Lib.StdMaps

abbrev Addr := ℕ

structure BlockIndex where
  phash_ : Option String
  pprev_ : Option Addr
  pnext_ : Option Addr
  block_pos_ : UInt32
  n_height_ : ℤ
  nbit_ : UInt32
  nonce_ : Int32
  hash_ : String
  miner_ : String
  -- ghost: the constructor's argument, which no function reads back
  block : Block
  deriving DecidableEq

def BlockIndex.new (H : BlockHash) (block : Block) : BlockIndex where
  phash_ := none
  pprev_ := none
  pnext_ := none
  block_pos_ := 0
  n_height_ := 0
  nbit_ := block.nbit_
  nonce_ := block.nonce_
  hash_ := H.get_hash block
  miner_ := block.miner_
  block := block

inductive Assertion
  | accept_block
  | debug_chains
  | on_mine
  | serialize
  deriving DecidableEq

inductive Fault
  | assertion (site : Assertion)
  | bad_pointer
  | diverged
  deriving DecidableEq

structure Chain where
  heap : List BlockIndex
  g_block_index : StdMap String Addr
  g_genesis_indexblk : Option Addr
  g_best_height : ℤ
  g_best_chain_hash : String
  g_best_index : Option Addr
  deriving DecidableEq

def Chain.init : Chain where
  heap := []
  g_block_index := ∅
  g_genesis_indexblk := none
  g_best_height := -1
  g_best_chain_hash := "DEADBEEF"
  g_best_index := none

def Chain.deref (c : Chain) (p : Option Addr) : Except Fault BlockIndex :=
  match p.bind (fun a => c.heap[a]?) with
  | some e => .ok e
  | none => .error .bad_pointer

def Chain.set_next (c : Chain) (next : Addr) : Option Addr → Except Fault Chain
  | some a =>
    if a < c.heap.length then
      .ok { c with heap := c.heap.modify a fun e => { e with pnext_ := some next } }
    else
      .error .bad_pointer
  | none => .error .bad_pointer

def Block.new_index (H : BlockHash) (b : Block) (c : Chain) : Except Fault Chain :=
  let hash := H.get_hash b
  let index_new := c.heap.length
  let c := { c with
    heap := c.heap ++ [{ BlockIndex.new H b with phash_ := some hash }]
    g_block_index := c.g_block_index.emplace hash index_new }
  match c.g_block_index.lookup b.prev_hash_ with
  | none => .ok c
  | some prev => do
    let parent ← c.deref (some prev)
    return { c with heap := c.heap.modify index_new fun e =>
      { e with pprev_ := some prev, n_height_ := parent.n_height_ + 1 } }

def Block.update_best (H : BlockHash) (b : Block) (index_new : Addr) (c : Chain) :
    Except Fault Chain := do
  let hash := H.get_hash b
  let e ← c.deref (some index_new)
  if e.n_height_ > c.g_best_height then
    -- Case 1: genesis block; Case 2: adding to current best branch; Case 3: do nothing
    let c ←
      if c.g_genesis_indexblk = none ∧ hash = g_genesis_hash then
        pure { c with g_genesis_indexblk := some index_new }
      else if b.prev_hash_ = c.g_best_chain_hash then
        c.set_next index_new e.pprev_
      else
        pure c
    return { c with
      g_best_chain_hash := hash
      g_best_index := some index_new
      g_best_height := e.n_height_ }
  else
    return c

def Block.add_to_chain (H : BlockHash) (b : Block) (c : Chain) : Except Fault (Bool × Chain) :=
  if H.get_hash b ∈ c.g_block_index then
    .ok (false, c)
  else do
    let c' ← b.new_index H c
    let c'' ← b.update_best H c.heap.length c'
    return (true, c'')

def Block.accept_block (H : BlockHash) (b : Block) (c : Chain) : Except Fault (Bool × Chain) :=
  if H.get_hash b ∈ c.g_block_index then
    .ok (false, c)
  else if b.prev_hash_ ∈ c.g_block_index then
    b.add_to_chain H c
  else
    .error (.assertion .accept_block)

-- a walk longer than the heap has met an entry twice and never ends
def Chain.pprev_walk (c : Chain) : ℕ → Option Addr → Except Fault (List BlockIndex)
  | _, none => .ok []
  | 0, some _ => .error .diverged
  | n + 1, some a => do
    let tmp_blk ← c.deref (some a)
    let rest ← c.pprev_walk n tmp_blk.pprev_
    return tmp_blk :: rest

def Chain.debug_chains (c : Chain) : Except Fault (List BlockIndex) :=
  if c.g_best_index = none then
    .error (.assertion .debug_chains)
  else
    c.pprev_walk c.heap.length c.g_best_index

end Xcoin
