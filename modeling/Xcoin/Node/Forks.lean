import Xcoin.Lib.Walks
import Xcoin.Node.Index

/-! The best chains of two nodes, or of one node at two times, are one chain up to a block and
have nothing in common above it. -/

namespace Xcoin

open Lib.Runs Lib.StdMaps Lib.Walks

variable (H : BlockHash)

def ParentHash (k k' : String) : Prop :=
  k ≠ H.get_hash Block.genesis ∧ ∃ b : Block, H.get_hash b = k ∧ b.prev_hash_ = k'

variable {H} {c : Chain} {s s' : Node}

lemma parent_hash_directed (hH : CollisionFree H) :
    Directed (ParentHash H) (H.get_hash Block.genesis) where
  unique k k₁ k₂ h h' := by
    obtain ⟨-, b, hb, rfl⟩ := h
    obtain ⟨-, b', hb', rfl⟩ := h'
    exact congrArg Header.prev_hash_ ((hH _ _).mp (hb.trans hb'.symm))
  stops k h := h.1 rfl

lemma row_walk (ht : c.Tree H) {n : ℕ} {a : Addr} {e : BlockIndex} {row : List BlockIndex}
    (he : c.heap[a]? = some e) (hrow : c.pprev_walk n (some a) = .ok row) :
    ∃ rest, row = e :: rest ∧ (row.length : ℤ) = e.n_height_ + 1 ∧
      Walk (ParentHash H) (H.get_hash Block.genesis) (row.map BlockIndex.hash_) := by
  induction n generalizing a e row with
  | zero => simp [Chain.pprev_walk] at hrow
  | succ n ih =>
    have hderef : c.deref (some a) = .ok e := by rw [Chain.deref, Option.bind_some, he]
    rw [Chain.pprev_walk, hderef] at hrow
    obtain ⟨x, hx, hrow⟩ := bind_ok.mp hrow
    obtain rfl : e = x := Except.ok.inj hx
    obtain ⟨rest, hrest, hpure⟩ := bind_ok.mp hrow
    obtain rfl : e :: rest = row := Except.ok.inj hpure
    refine ⟨rest, rfl, ?_⟩
    by_cases ha : a = 0
    · subst ha
      obtain ⟨hgen, hnone, hheight⟩ := ht.root_entry he
      have hnil : rest = [] := by
        rw [hnone] at hrest
        cases n <;> simpa [Chain.pprev_walk] using hrest
      subst hnil
      refine ⟨by simp [hheight], ?_⟩
      rw [List.map_singleton, ht.hash he, hgen]
      exact walk_singleton _
    · obtain ⟨p, parent, -, hpp, hp, hph, hh⟩ := ht.parent he ha
      rw [hpp] at hrest
      obtain ⟨tail, rfl, hlen, hwalk⟩ := ih hp hrest
      refine ⟨by rw [List.length_cons, hh, ← hlen]; simp, ?_⟩
      apply walk_cons_cons.mpr
      refine ⟨⟨?_, e.block, (ht.hash he).symm, hph.symm⟩, hwalk⟩
      exact fun hk => ha ((ht.root_iff he).mp hk)

lemma debug_chains_walk (hs : s.Sound H) {row : List BlockIndex} (h : s.debug_chains = .ok row) :
    (row.length : ℤ) = s.g_best_height + 1 ∧
      Walk (ParentHash H) (H.get_hash Block.genesis) (row.map BlockIndex.hash_) := by
  obtain ⟨t, e, ht⟩ := hs.chain.tip
  rw [Chain.debug_chains, ht.index, if_neg (Option.some_ne_none t)] at h
  obtain ⟨-, -, hlen, hwalk⟩ := row_walk hs.chain.tree ht.entry h
  rw [ht.height]
  exact ⟨hlen, hwalk⟩

/-- The rows that `debug_chains` prints after two runs end in one common part, which reaches
down to genesis, and above it no block of one row is in the other. -/
theorem best_chains_fork_once (H : BlockHash) (hH : CollisionFree H) (es es' : List Event)
    (s s' : Node) (h : node_run H es = .ok s) (h' : node_run H es' = .ok s') :
    ∃ row row' x y p, s.debug_chains = .ok row ∧ s'.debug_chains = .ok row' ∧
      row.map BlockIndex.hash_ = x ++ p ∧ row'.map BlockIndex.hash_ = y ++ p ∧
      p.getLast? = some (H.get_hash Block.genesis) ∧
      (∀ k ∈ x, k ∉ row'.map BlockIndex.hash_) ∧ (∀ k ∈ y, k ∉ row.map BlockIndex.hash_) ∧
      s.g_best_height - s'.g_best_height = x.length - y.length := by
  obtain ⟨hs, -⟩ := node_run_sound h
  obtain ⟨hs', -⟩ := node_run_sound h'
  obtain ⟨row, hrow⟩ := debug_chains_ok hs.chain
  obtain ⟨row', hrow'⟩ := debug_chains_ok hs'.chain
  obtain ⟨hlen, hwalk⟩ := debug_chains_walk hs hrow
  obtain ⟨hlen', hwalk'⟩ := debug_chains_walk hs' hrow'
  obtain ⟨x, y, p, hx, hy, hp, hxa, hya⟩ := walks_join (parent_hash_directed hH) hwalk hwalk'
  refine ⟨row, row', x, y, p, hrow, hrow', hx, hy, hp.ends, hxa, hya, ?_⟩
  have hxlen := congrArg List.length hx
  have hylen := congrArg List.length hy
  simp only [List.length_map, List.length_append] at hxlen hylen
  omega

theorem best_chains_fork_once_sample :
    ∃ s s' row row' x y p, node_run plainHash [.mine 1 "peer0", .mine 2 "peer0"] = .ok s ∧
      node_run plainHash [.mine 1 "peer0", .mine 3 "peer1"] = .ok s' ∧
      s.debug_chains = .ok row ∧ s'.debug_chains = .ok row' ∧
      row.map BlockIndex.hash_ = x ++ p ∧ row'.map BlockIndex.hash_ = y ++ p ∧
      ∀ k ∈ x, k ∉ row'.map BlockIndex.hash_ := by
  obtain ⟨s, hs, -⟩ := holdsAfter_iff.mp (show holdsAfter
    (node_run plainHash [.mine 1 "peer0", .mine 2 "peer0"]) (fun _ => true) = true by decide)
  obtain ⟨s', hs', -⟩ := holdsAfter_iff.mp (show holdsAfter
    (node_run plainHash [.mine 1 "peer0", .mine 3 "peer1"]) (fun _ => true) = true by decide)
  obtain ⟨row, row', x, y, p, hrow, hrow', hx, hy, -, hxa, -⟩ :=
    best_chains_fork_once plainHash plainHash_collisionFree _ _ s s' hs hs'
  exact ⟨s, s', row, row', x, y, p, hs, hs', hrow, hrow', hx, hy, hxa⟩

end Xcoin
