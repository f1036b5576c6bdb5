import Xcoin.Lib.Readers
import Xcoin.Lib.TextTokens
import Xcoin.Node.Delivery
import Xcoin.Receive.Client

/-! Blocks on the streams between the miner and the main thread: `main_on_read` and
`miner_on_read` on the bytes that lie in the input buffer. -/

namespace Xcoin

open Lib.Runs Lib.Archives Lib.Bytes Lib.TextTokens Lib.Readers

-- `char data[n] = {0}` is filled and inserted until a read returns nothing
def read_all {σ φ : Type} (n : ℕ) (fault : ReceiveFault → φ)
    (insert : σ → List UInt8 → Except φ σ) : ℕ → List UInt8 → σ → Except φ σ
  | 0, _, _ => .error (fault .diverged)
  | fuel + 1, input, s =>
    let data := input.take n
    if data.length = 0 then .ok s
    else
      match inserted n data with
      | none => .error (fault .unterminated_array)
      | some text => insert s text >>= read_all n fault insert fuel (input.drop n)

abbrev OutClients := List (String × Option (List UInt8))

-- what has been written to every client; the loop returns at a client that is `NULL`
def broadcast_block (data : List UInt8) : OutClients → OutClients
  | [] => []
  | (name, none) :: clients => (name, none) :: clients
  | (name, some written) :: clients =>
    (name, some (written ++ (data ++ [42]))) :: broadcast_block data clients

structure MainThread where
  out_clients_ : OutClients
  -- ghost: the calls of `broadcast_block`
  broadcasts : List (List UInt8)

def MainThread.fresh (names : List String) : MainThread where
  out_clients_ := names.map fun name => (name, some [])
  broadcasts := []

def MainThread.insert (s : MainThread) (text : List UInt8) : Except ReceiveFault MainThread :=
  .ok ⟨broadcast_block text s.out_clients_, s.broadcasts ++ [text]⟩

def main_on_read (s : MainThread) (input : List UInt8) : Except ReceiveFault MainThread :=
  read_all 8192 id MainThread.insert (input.length + 1) input s

inductive MinerFault
  | receive (fault : ReceiveFault)
  | process_block (fault : Fault)
  | dangling_orphan
  deriving DecidableEq

-- a block of the loop's own: the orphan maps keep the address of every such block, and all that
-- they hold is read when a new one comes (`debug_maps`)
def Block.process_in_loop (H : BlockHash) (block : Block) (s : Node) : Except MinerFault Node :=
  if ¬ s.Known (H.get_hash block) ∧ s.g_orphan_prev_blocks ≠ [] then
    .error .dangling_orphan
  else
    match block.process_block H s with
    | .error fault => .error (.process_block fault)
    | .ok (_, s) => .ok s

structure MinerThread where
  -- what the last call of `process_block` has left; after a fault in it nothing more is read
  node : Except MinerFault Node
  -- ghost: the blocks `process_block` was called on
  processed : List Block

structure MinerRead extends MinerThread where
  -- what has not been read from the stream yet; `ss.clear()` drops nothing of it
  ss : List UInt8

variable (H : BlockHash) (A : Archive Block)

def MinerThread.process (s : MinerThread) (block : Block) : Except MinerFault MinerThread := do
  let node ← s.node
  return ⟨block.process_in_loop H node, s.processed ++ [block]⟩

def MinerRead.insert (s : MinerRead) (text : List UInt8) : Except MinerFault MinerRead :=
  match A.load (s.ss ++ text) with
  | none => .error (.receive .archive_exception)
  | some (block, rest) => do
    let t ← s.process H block
    return { t with ss := rest }

def miner_on_read (s : MinerThread) (input : List UInt8) : Except MinerFault MinerThread :=
  MinerRead.toMinerThread <$>
    read_all 128 .receive (MinerRead.insert H A) (input.length + 1) input ⟨s, []⟩

inductive Reads (n : ℕ) : List UInt8 → List (List UInt8) → Prop
  | nil : Reads n [] []
  | cons {input text texts} : input ≠ [] → inserted n (input.take n) = some text →
      Reads n (input.drop n) texts → Reads n input (text :: texts)

variable {H A} {σ φ : Type} {n fuel : ℕ} {fault : ReceiveFault → φ}
variable {insert : σ → List UInt8 → Except φ σ} {s u : σ}
variable {input : List UInt8} {texts : List (List UInt8)}

lemma read_all_ok (hn : 0 < n) (h : read_all n fault insert fuel input s = .ok u) :
    ∃ texts, Reads n input texts ∧ run insert s texts = .ok u := by
  induction fuel generalizing input s with
  | zero => exact nomatch h
  | succ fuel ih =>
    rw [read_all] at h
    split at h
    · rename_i hzero
      have hnil : input = [] := by
        rw [List.length_take] at hzero
        exact List.length_eq_zero_iff.mp (by omega)
      exact ⟨[], hnil ▸ .nil, h⟩
    · rename_i hpos
      have hne : input ≠ [] := by
        rintro rfl
        simp at hpos
      split at h
      · exact nomatch h
      · rename_i text htext
        obtain ⟨v, hv, h⟩ := bind_ok.mp h
        obtain ⟨texts, hreads, hu⟩ := ih h
        exact ⟨text :: texts, .cons hne htext hreads, (run_cons_ok _).mpr ⟨v, hv, hu⟩⟩

lemma Reads.length_le (h : Reads n input texts) : texts.flatten.length ≤ input.length := by
  induction h with
  | nil => simp
  | @cons input text texts hne htext hreads ih =>
    have hle := inserted_le htext
    rw [List.length_take] at hle
    rw [List.length_drop] at ih
    rw [List.flatten_cons, List.length_append]
    omega

lemma Reads.whole (h : Reads n input texts) (hne : input ≠ [])
    (hlen : input.length ≤ texts.flatten.length) :
    texts = [input] ∧ 0 ∉ input ∧ input.length < n := by
  cases h with
  | nil => exact (hne rfl).elim
  | @cons _ text texts _ htext hreads =>
    have hle := inserted_le htext
    have hrest := hreads.length_le
    rw [List.flatten_cons, List.length_append] at hlen
    have hsplit := List.length_take (i := n) (l := input)
    rw [List.length_drop] at hrest
    obtain ⟨rfl, hclean, hlt⟩ := inserted_whole htext (by omega)
    have hall : input.take n = input := List.take_of_length_le (by omega)
    rw [hall] at hclean hlt ⊢
    rw [List.drop_of_length_le (by omega)] at hreads
    cases hreads with
    | nil => exact ⟨rfl, hclean, hlt⟩
    | cons hno => exact (hno rfl).elim

lemma read_all_one (hne : input ≠ []) (hclean : 0 ∉ input)
    (hlt : input.length < n) :
    read_all n fault insert (input.length + 1) input s = insert s input := by
  have hpos := List.length_pos_iff.mpr hne
  obtain ⟨k, hk⟩ : ∃ k, input.length = k + 1 := ⟨input.length - 1, by omega⟩
  rw [read_all, List.take_of_length_le hlt.le, List.drop_of_length_le hlt.le,
    if_neg (by omega), inserted_clean hclean hlt]
  simp only
  rw [hk]
  cases insert s input with
  | error d => rfl
  | ok u => simp [bind, Except.bind, read_all]

lemma main_insert_run {s u : MainThread} (h : run MainThread.insert s texts = .ok u) :
    u.broadcasts = s.broadcasts ++ texts := by
  induction texts generalizing s with
  | nil =>
    obtain rfl := Except.ok.inj h
    simp
  | cons text texts ih =>
    obtain ⟨v, hv, h⟩ := (run_cons_ok _).mp h
    obtain rfl := Except.ok.inj hv
    rw [ih h, List.append_assoc]
    rfl

lemma main_insert_total (s : MainThread) (texts : List (List UInt8)) :
    ∃ t, run MainThread.insert s texts = .ok t := by
  induction texts generalizing s with
  | nil => exact ⟨s, rfl⟩
  | cons text texts ih => exact ih _

def mainReader : Reader MainThread UInt8 (List UInt8) ReceiveFault where
  step := main_on_read
  act := MainThread.insert
  log := MainThread.broadcasts
  enc := id
  Accepts p := 0 ∉ p ∧ p.length < 8192
  step_enc s b hne haccept := read_all_one hne haccept.1 haccept.2
  act_log h := by
    obtain rfl := Except.ok.inj h
    rfl

lemma mainReader_counts : mainReader.Counts := by
  intro s t p hp h
  obtain ⟨texts, hreads, hrun⟩ := read_all_ok (by decide) h
  have hid : texts.map mainReader.enc = texts := List.map_id _
  refine ⟨texts, main_insert_run hrun, ?_, ?_⟩
  · rw [hid]
    exact hreads.length_le
  · rw [hid]
    intro hlen
    obtain ⟨rfl, haccept⟩ := hreads.whole hp hlen
    exact ⟨rfl, haccept⟩

lemma process_log {s u : MinerThread} {b : Block} (h : s.process H b = .ok u) :
    u.processed = s.processed ++ [b] := by
  obtain ⟨node, -, hu⟩ := bind_ok.mp h
  rw [← Except.ok.inj hu]

lemma insert_ok {s u : MinerRead} {text : List UInt8} (h : s.insert H A text = .ok u) :
    ∃ b, A.load (s.ss ++ text) = some (b, u.ss) ∧ s.process H b = .ok u.toMinerThread := by
  rw [MinerRead.insert] at h
  cases hload : A.load (s.ss ++ text) with
  | none =>
    rw [hload] at h
    exact nomatch h
  | some x =>
    rw [hload] at h
    obtain ⟨t, ht, hu⟩ := bind_ok.mp h
    obtain rfl := Except.ok.inj hu
    exact ⟨x.1, rfl, ht⟩

/-- Every read gives one block, and no more bytes than were read are needed for the blocks. -/
lemma miner_insert_run (hA : A.NeedsWhole) {s u : MinerRead}
    (h : run (MinerRead.insert H A) s texts = .ok u) :
    ∃ bs, u.processed = s.processed ++ bs ∧ bs.length = texts.length ∧
      (bs.map A.save).flatten.length + u.ss.length ≤ s.ss.length + texts.flatten.length := by
  induction texts generalizing s with
  | nil =>
    obtain rfl := Except.ok.inj h
    exact ⟨[], by simp⟩
  | cons text texts ih =>
    obtain ⟨v, hv, h⟩ := (run_cons_ok _).mp h
    obtain ⟨b, hload, hprocess⟩ := insert_ok hv
    obtain ⟨bs, hprocessed, hlen, hbytes⟩ := ih h
    have hwhole := hA hload
    refine ⟨b :: bs, ?_, by simp [hlen], ?_⟩
    · rw [hprocessed, process_log hprocess, List.append_assoc]
      rfl
    · simp only [List.map_cons, List.flatten_cons, List.length_append] at hwhole ⊢
      omega

def minerReader (H : BlockHash) (A : Archive Block) :
    Reader MinerThread UInt8 Block MinerFault where
  step := miner_on_read H A
  act := MinerThread.process H
  log := MinerThread.processed
  enc := A.save
  Accepts p := 0 ∉ p ∧ p.length < 128
  step_enc s b hne haccept := by
    have hinsert : MinerRead.insert H A ⟨s, []⟩ (A.save b) =
        s.process H b >>= fun t => .ok { t with ss := [] } := by
      rw [MinerRead.insert, List.nil_append, A.load_whole]
      rfl
    rw [miner_on_read, read_all_one hne haccept.1 haccept.2, hinsert]
    cases s.process H b <;> rfl
  act_log := process_log

lemma minerReader_counts (hA : A.NeedsWhole) : (minerReader H A).Counts := by
  intro s t p hp h
  obtain ⟨u, hu, rfl⟩ := map_ok.mp h
  obtain ⟨texts, hreads, hrun⟩ := read_all_ok (by decide) hu
  obtain ⟨bs, hprocessed, hlen, hbytes⟩ := miner_insert_run hA hrun
  have hle := hreads.length_le
  simp only [List.length_nil, Nat.zero_add] at hbytes
  change ∃ bs, u.processed = s.processed ++ bs ∧ (bs.map A.save).flatten.length ≤ p.length ∧
    (p.length ≤ (bs.map A.save).flatten.length →
      [p].map List.length = (bs.map A.save).map List.length ∧ 0 ∉ p ∧ p.length < 128)
  refine ⟨bs, hprocessed, by omega, ?_⟩
  intro hge
  obtain ⟨rfl, haccept⟩ := hreads.whole hp (by omega)
  obtain ⟨b, rfl⟩ := List.length_eq_one_iff.mp hlen
  refine ⟨?_, haccept⟩
  simp only [List.map_singleton, List.flatten_singleton] at hge hbytes ⊢
  congr 1
  omega

/-- A block that the loop comes through: it is known, or no orphan is stored before it and it
does not name itself as its parent. -/
def Node.SafeInLoop (H : BlockHash) (node : Node) (b : Block) : Prop :=
  node.Known (H.get_hash b) ∨ node.g_orphan_prev_blocks = [] ∧ node.SafeToReceive H b

theorem process_in_loop_iff {node : Node} (hs : node.Sound H) (b : Block) :
    (∃ t, b.process_in_loop H node = .ok t) ↔ node.SafeInLoop H b := by
  rw [Block.process_in_loop, Node.SafeInLoop]
  by_cases hknown : node.Known (H.get_hash b)
  · rw [if_neg (fun h => h.1 hknown)]
    rcases process_block_spec hs b with ⟨-, hp⟩ | ⟨hnew, -⟩ | ⟨hnew, -⟩
    · rw [hp]
      exact ⟨fun _ => Or.inl hknown, fun _ => ⟨node, rfl⟩⟩
    · exact absurd hknown hnew
    · exact absurd hknown hnew
  · by_cases hnone : node.g_orphan_prev_blocks = []
    · rw [if_neg (fun h => h.2 hnone)]
      rcases process_block_resolved hs (no_orphans_resolved hs hnone) b with
        ⟨hsafe, r, t, hok, -⟩ | ⟨hbad, herr⟩
      · rw [hok]
        exact ⟨fun _ => Or.inr ⟨hnone, hsafe⟩, fun _ => ⟨t, rfl⟩⟩
      · rw [herr]
        simp [hknown, hbad]
    · rw [if_pos ⟨hknown, hnone⟩]
      simp [hknown, hnone]

lemma process_in_loop_step {node t : Node} {b : Block} (h : b.process_in_loop H node = .ok t) :
    step H node (.receive b) = .ok t := by
  rw [Block.process_in_loop] at h
  split at h
  · cases h
  · rw [step]
    cases hp : b.process_block H node with
    | error d =>
      rw [hp] at h
      cases h
    | ok x =>
      rw [hp] at h
      exact map_ok.mpr ⟨x, rfl, Except.ok.inj h⟩

/-- Each block is safe in the state that `process_block` has made of the blocks before it. -/
def Node.SafeRun (H : BlockHash) (node : Node) (blocks : List Block) : Prop :=
  ∀ pre b post t, blocks = pre ++ b :: post →
    run (fun s b => step H s (.receive b)) node pre = .ok t → t.SafeInLoop H b

theorem process_in_loop_run_iff {node : Node} (hs : node.Sound H) (blocks : List Block) :
    (∃ t, run (fun s b => Block.process_in_loop H b s) node blocks = .ok t) ↔
      node.SafeRun H blocks :=
  run_guarded_iff (fun _ _ _ hs ht => (step_advances hs ht).1)
    (fun _ _ _ => process_in_loop_step) (fun _ b hs => process_in_loop_iff hs b) hs

/-- The process goes on to a block just when it has come through all blocks before it. -/
lemma process_run_iff {node : Node} {log blocks : List Block} :
    (∃ t, run (MinerThread.process H) ⟨.ok node, log⟩ blocks = .ok t) ↔
      ∃ t, run (fun s b => Block.process_in_loop H b s) node blocks.dropLast = .ok t := by
  induction blocks generalizing node log with
  | nil => exact ⟨fun _ => ⟨node, rfl⟩, fun _ => ⟨_, rfl⟩⟩
  | cons b blocks ih =>
    have hfirst : MinerThread.process H ⟨.ok node, log⟩ b =
        .ok ⟨b.process_in_loop H node, log ++ [b]⟩ := rfl
    cases blocks with
    | nil =>
      rw [run_singleton, hfirst]
      exact ⟨fun _ => ⟨node, rfl⟩, fun _ => ⟨_, rfl⟩⟩
    | cons c blocks =>
      rw [List.dropLast_cons_cons, run_cons, run_cons, hfirst]
      cases hb : b.process_in_loop H node with
      | error d => simp [bind, Except.bind, run_cons, MinerThread.process]
      | ok t => exact ih

lemma broadcast_block_all (data written : List UInt8) (names : List String) :
    broadcast_block data (names.map fun name => (name, some written)) =
      names.map fun name => (name, some (written ++ (data ++ [42]))) := by
  induction names with
  | nil => rfl
  | cons name names ih => simp only [List.map_cons, broadcast_block, ih]

def MainThread.Written (names : List String) (s : MainThread) : Prop :=
  s.out_clients_ = names.map fun name => (name, some (s.broadcasts.map (· ++ [42])).flatten)

lemma main_on_read_written {names : List String} {s u : MainThread} (hs : s.Written names)
    (h : main_on_read s input = .ok u) : u.Written names := by
  obtain ⟨texts, -, hrun⟩ := read_all_ok (by decide) h
  refine run_invariant ?_ hs hrun
  intro s text t hs ht
  obtain rfl := Except.ok.inj ht
  rw [MainThread.Written] at hs ⊢
  simp [hs, broadcast_block_all]

/-- Every piece is the text of one block, without NUL bytes and short of filling the array. -/
structure BlockPieces (A : Archive Block) (n : ℕ) (blocks : List Block)
    (pieces : List (List UInt8)) : Prop where
  texts : pieces = blocks.map A.save
  fits : ∀ p ∈ pieces, 0 ∉ p ∧ p.length < n

def BroadcastsAll (A : Archive Block) (names : List String) (blocks : List Block)
    (pieces : List (List UInt8)) : Prop :=
  ∃ s, run main_on_read (.fresh names) pieces = .ok s ∧ s.broadcasts = blocks.map A.save ∧
    s.out_clients_ = names.map fun name =>
      (name, some (blocks.map fun b => A.save b ++ [42]).flatten)

def ProcessesAll (H : BlockHash) (A : Archive Block) (node : Node) (blocks : List Block)
    (pieces : List (List UInt8)) : Prop :=
  ∃ s, run (miner_on_read H A) ⟨.ok node, []⟩ pieces = .ok s ∧ s.processed = blocks

variable {blocks : List Block} {pieces : List (List UInt8)}

theorem main_stream_iff (names : List String) (hne : [] ∉ pieces)
    (hstream : pieces.flatten = (blocks.map A.save).flatten) :
    BroadcastsAll A names blocks pieces ↔ BlockPieces A 8192 blocks pieces := by
  have htexts : pieces.flatten = ((blocks.map A.save).map id).flatten := by rwa [List.map_id]
  have hread {t : MainThread} := Reader.run_iff (s := MainThread.fresh names) (t := t)
    mainReader_counts hne htexts
  constructor
  · rintro ⟨t, ht, hlog, -⟩
    obtain ⟨hpieces, haccept, -⟩ := hread.mp ⟨ht, hlog⟩
    exact ⟨hpieces.trans (List.map_id _), haccept⟩
  · rintro ⟨hpieces, haccept⟩
    obtain ⟨t, ht⟩ := main_insert_total (MainThread.fresh names) (blocks.map A.save)
    obtain ⟨ht, hlog⟩ := hread.mpr ⟨hpieces.trans (List.map_id _).symm, haccept, ht⟩
    have hfresh : (MainThread.fresh names).Written names := by
      simp [MainThread.Written, MainThread.fresh]
    have hwritten := run_invariant (fun _ _ _ => main_on_read_written) hfresh ht
    refine ⟨t, ht, hlog, ?_⟩
    rw [hwritten, show t.broadcasts = blocks.map A.save from hlog, List.map_map]
    rfl

theorem miner_stream {node : Node} (hs : node.Sound H) (hne : [] ∉ pieces)
    (hpieces : BlockPieces A 128 blocks pieces) (hsafe : node.SafeRun H blocks.dropLast) :
    ProcessesAll H A node blocks pieces := by
  obtain ⟨t, ht⟩ := process_run_iff.mpr ((process_in_loop_run_iff hs _).mpr hsafe)
  have hrun := Reader.run_enc (r := minerReader H A) (s := ⟨.ok node, []⟩) hne hpieces.texts
    hpieces.fits
  exact ⟨t, hrun.trans ht, Reader.run_act_log (r := minerReader H A) ht⟩

theorem miner_stream_only (hA : A.NeedsWhole) {node : Node} (hs : node.Sound H)
    (hne : [] ∉ pieces) (hstream : pieces.flatten = (blocks.map A.save).flatten)
    (h : ProcessesAll H A node blocks pieces) :
    BlockPieces A 128 blocks pieces ∧ node.SafeRun H blocks.dropLast := by
  obtain ⟨t, ht, hlog⟩ := h
  obtain ⟨hpieces, haccept, hact⟩ :=
    (Reader.run_iff (minerReader_counts hA) hne hstream).mp ⟨ht, hlog⟩
  exact ⟨⟨hpieces, haccept⟩, (process_in_loop_run_iff hs _).mp (process_run_iff.mp ⟨t, hact⟩)⟩

/-- Every block is broadcast, and processed, once and in order when every piece is the text of
one block, short of filling the array it is read into, and the loop of `miner_on_read` comes
through the blocks before the last; and only then, if no block is decoded from fewer bytes than
its text has. -/
theorem block_stream_iff (H : BlockHash) (A : Archive Block) (es : List Event) (node : Node)
    (hnode : node_run H es = .ok node) (names : List String) (blocks : List Block)
    (pieces pieces' : List (List UInt8)) (hne : [] ∉ pieces) (hne' : [] ∉ pieces')
    (hstream : pieces.flatten = (blocks.map A.save).flatten)
    (hstream' : pieces'.flatten = (blocks.map A.save).flatten) :
    (BroadcastsAll A names blocks pieces ↔ BlockPieces A 8192 blocks pieces) ∧
    (BlockPieces A 128 blocks pieces' → node.SafeRun H blocks.dropLast →
      ProcessesAll H A node blocks pieces') ∧
    (A.NeedsWhole → (ProcessesAll H A node blocks pieces' ↔
      BlockPieces A 128 blocks pieces' ∧ node.SafeRun H blocks.dropLast)) := by
  obtain ⟨hs, -⟩ := node_run_sound hnode
  refine ⟨main_stream_iff names hne hstream, miner_stream hs hne', ?_⟩
  intro hA
  constructor
  · exact miner_stream_only hA hs hne' hstream'
  · rintro ⟨hpieces, hsafe⟩
    exact miner_stream hs hne' hpieces hsafe

-- a string that is followed by another field ends with a blank
def Block.text (b : Block) : List UInt8 :=
  archive_start ++ (number b.index_.toNat ++ ((counted b.prev_hash_ ++ [32]) ++
    (number b.nbit_.toNat ++ (number b.nonce_.toInt ++ counted b.miner_))))

lemma block_text_delimited : Delimited Block.text := by
  have hnat := number_delimited.comap Nat.cast_injective
  have hfields := hnat.pair ((counted_delimited.before [32]).pair
    (hnat.pair (number_delimited.pair counted_delimited)))
  apply (hfields.after archive_start).comap (f := fun b : Block =>
    (b.index_.toNat, b.prev_hash_, b.nbit_.toNat, b.nonce_.toInt, b.miner_))
  intro b b' h
  simp only [Prod.mk.injEq, UInt32.toNat_inj, Int32.toInt_inj] at h
  cases b
  cases b'
  simpa using h

noncomputable def blockArchive : Archive Block := Archive.ofDelimited block_text_delimited

lemma blockArchive_whole : blockArchive.NeedsWhole :=
  (ofDelimited_exact block_text_delimited).needs_whole

theorem block_stream_iff_sample :
    BroadcastsAll blockArchive ["a", "b"] [samplePeer1, samplePeer2]
      ([samplePeer1, samplePeer2].map Block.text) ∧
    ProcessesAll (.ofSHA1 sampleDigests) blockArchive (Node.start (.ofSHA1 sampleDigests))
      [samplePeer1, samplePeer2] ([samplePeer1, samplePeer2].map Block.text) := by
  have h := block_stream_iff (.ofSHA1 sampleDigests) blockArchive [] _ (node_run_eq _ []) ["a", "b"]
    [samplePeer1, samplePeer2] ([samplePeer1, samplePeer2].map Block.text)
    ([samplePeer1, samplePeer2].map Block.text) (by decide) (by decide) rfl rfl
  refine ⟨h.1.mpr ⟨rfl, by decide⟩, (h.2.2 blockArchive_whole).mpr ⟨⟨rfl, by decide⟩, ?_⟩⟩
  obtain ⟨t, ht, -⟩ := holdsAfter_iff.mp (show holdsAfter (run
    (fun s b => Block.process_in_loop (.ofSHA1 sampleDigests) b s)
    (Node.start (.ofSHA1 sampleDigests)) [samplePeer1]) (fun _ => true) = true by decide)
  exact (process_in_loop_run_iff start_sound [samplePeer1]).mp ⟨t, ht⟩

def sampleBlocks : List Block := [Block.genesis, { Block.genesis with index_ := 1 }]

theorem blocks_merged :
    ¬ BroadcastsAll blockArchive ["a"] sampleBlocks [(sampleBlocks.map Block.text).flatten] ∧
    ¬ ProcessesAll plainHash blockArchive (Node.start plainHash) sampleBlocks
        [(sampleBlocks.map Block.text).flatten] := by
  have hstream : [(sampleBlocks.map Block.text).flatten].flatten =
      (sampleBlocks.map blockArchive.save).flatten := List.flatten_singleton
  constructor
  · intro h
    have hpieces := ((main_stream_iff ["a"] (by decide) hstream).mp h).texts
    exact nomatch congrArg List.length hpieces
  · intro h
    have hpieces := (miner_stream_only blockArchive_whole start_sound (by decide) hstream h).1.texts
    exact nomatch congrArg List.length hpieces

end Xcoin
