import Xcoin.Node.Delivery

/-! The block index and the best tip after any run of the node. Heights are integers: they
are the `int` of `n_height_` while no chain has 2^31 blocks, and so in all that builds on this. -/

namespace Xcoin

open Lib.Runs Lib.StdMaps Lib.Chase

variable {H : BlockHash} {c : Chain} {s s' : Node}

lemma chase_root_iff (ht : c.Tree H) {a : Addr} {e : BlockIndex} (h : c.heap[a]? = some e) (m : ℕ) :
    chase c.pprev m a = some 0 ↔ (m : ℤ) = e.n_height_ := by
  have hpos := ht.height_nonneg h
  have hroot := ht.chase_root h
  obtain ⟨g, hg, -⟩ := ht.root
  have hend : c.pprev 0 = none := by rw [pprev_entry hg, (ht.root_entry hg).2.1]
  constructor
  · intro hm
    have hle := chase_end_le hend hm hroot
    have hge := chase_end_le hend hroot hm
    omega
  · intro hm
    rw [← hroot]
    congr 1
    omega

structure Chain.TreeEntry (H : BlockHash) (c : Chain) (k : String) (a : Addr) (e : BlockIndex) :
    Prop where
  own : e.hash_ = k ∧ H.get_hash e.block = k
  genesis : k = H.get_hash Block.genesis → e.n_height_ = 0 ∧ e.pprev_ = none
  parent : k ≠ H.get_hash Block.genesis → ∃ p parent, e.pprev_ = some p ∧
    c.g_block_index.lookup e.block.prev_hash_ = some p ∧ c.heap[p]? = some parent ∧
    e.n_height_ = parent.n_height_ + 1
  path : ∃ g, c.g_block_index.lookup (H.get_hash Block.genesis) = some g ∧
    ∀ m : ℕ, chase c.pprev m a = some g ↔ (m : ℤ) = e.n_height_

lemma tree_entry (ht : c.Tree H) {k : String} {a : Addr} (hl : c.g_block_index.lookup k = some a) :
    ∃ e, c.heap[a]? = some e ∧ c.TreeEntry H k a e := by
  obtain ⟨e, he, hk⟩ := ht.lookup.mp hl
  have hroot := ht.root_iff he
  rw [hk] at hroot
  refine ⟨e, he, ?_⟩
  constructor
  · exact ⟨hk, by rw [← ht.hash he, hk]⟩
  · intro hkg
    obtain rfl := hroot.mp hkg
    exact (ht.root_entry he).2.symm
  · intro hkg
    obtain ⟨p, parent, -, hpp, hpe, hph, hh⟩ := ht.parent he (mt hroot.mpr hkg)
    exact ⟨p, parent, hpp, ht.lookup.mpr ⟨parent, hpe, hph⟩, hpe, hh⟩
  · exact ⟨0, ht.genesis_lookup, chase_root_iff ht he⟩

theorem index_is_tree (H : BlockHash) (es : List Event) (s : Node) (h : node_run H es = .ok s) :
    (∀ k a, s.g_block_index.lookup k = some a →
      ∃ e, s.heap[a]? = some e ∧ s.TreeEntry H k a e) ∧
    ∃ row, s.debug_chains = .ok row := by
  obtain ⟨hs, -⟩ := node_run_sound h
  exact ⟨fun k a hl => tree_entry hs.chain.tree hl, debug_chains_ok hs.chain⟩

theorem index_is_tree_sample :
    ∃ s, node_run (.ofSHA1 sampleDigests) [.receive samplePeer2, .receive samplePeer1] = .ok s ∧
      ∃ a e, s.heap[a]? = some e ∧
        s.TreeEntry (.ofSHA1 sampleDigests) (samplePeer2.get_hash sampleDigests) a e := by
  obtain ⟨s, hs, hl⟩ := holdsAfter_iff.mp (show holdsAfter
    (node_run (.ofSHA1 sampleDigests) [.receive samplePeer2, .receive samplePeer1])
      (fun s => s.g_block_index.lookup (samplePeer2.get_hash sampleDigests) = some 2) = true by
        decide)
  exact ⟨s, hs, 2, (index_is_tree _ _ s hs).1 _ _ (of_decide_eq_true hl)⟩

theorem step_error {ev : Event} {d : Fault} (hs : s.Sound H) (h : step H s ev = .error d) :
    d = .assertion .accept_block ∨ d = .assertion .serialize := by
  cases ev with
  | mine nonce name =>
    rw [step, map_error] at h
    obtain ⟨t, e, -, ⟨-, hm⟩ | ⟨-, hm⟩⟩ := on_mine_spec hs nonce name
    · rw [hm, map_error] at h
      exact Or.inr (serialize_error h)
    · rw [hm, map_error] at h
      exact Or.inr (serialize_error h)
  | receive b =>
    rw [step, map_error] at h
    exact Or.inl (process_block_error hs h)

/-- After any run the tip is the first entry of maximal height. From there the best height
never decreases, the tip only moves to a new and higher entry, and no step goes through a
null pointer. -/
theorem tip_selection (H : BlockHash) (es : List Event) (s : Node) (h : node_run H es = .ok s) :
    (∃ t e, s.TipAt t e ∧ s.g_block_index.lookup s.g_best_chain_hash = some t) ∧
    (∀ fs s', run (step H) s fs = .ok s' → s.g_best_height ≤ s'.g_best_height ∧
      (s'.g_best_index = s.g_best_index ∨ ∃ t e, s'.g_best_index = some t ∧
        s'.heap[t]? = some e ∧ e.hash_ ∉ s.g_block_index ∧ s.g_best_height < e.n_height_)) ∧
    ∀ ev, step H s ev ≠ .error .bad_pointer := by
  obtain ⟨hs, -⟩ := node_run_sound h
  obtain ⟨t, e, ht⟩ := hs.chain.tip
  refine ⟨⟨t, e, ht, ?_⟩, ?_, ?_⟩
  · exact hs.chain.tree.lookup.mpr ⟨e, ht.entry, ht.hash.symm⟩
  · intro fs s' hrun
    obtain ⟨hs', bs, had⟩ := run_advances hs hrun
    obtain ⟨t', e', ht'⟩ := hs'.chain.tip
    have hkeeps := had.grows.keeps
    rw [ht.height, ht'.height, ht.index, ht'.index]
    rcases ht.moves hkeeps ht' with rfl | ⟨hnew, hlt⟩
    · obtain ⟨x, hx, hag⟩ := hkeeps.entry ht.entry
      obtain rfl : e' = x := Option.some.inj (ht'.entry.symm.trans hx)
      exact ⟨hag.height.ge, Or.inl rfl⟩
    · refine ⟨hlt.le, Or.inr ⟨t', e', rfl, ht'.entry, ?_, hlt⟩⟩
      intro hk
      obtain ⟨a, x, hx, hxh⟩ := hs.chain.tree.mem_index.mp hk
      obtain ⟨y, hy, hag⟩ := hkeeps.entry hx
      obtain ⟨rfl, -⟩ := hs'.chain.tree.entry_unique hy ht'.entry (by rw [hag.hash, hxh])
      exact absurd (entry_lt hx) (not_lt.mpr hnew)
  · intro ev hev
    rcases step_error hs hev with hd | hd <;> simp at hd

def sampleRival : Block := ⟨1, g_genesis_hash, 5, 8, "peer3"⟩
def sampleRivalChild : Block := ⟨2, plainHash.get_hash sampleRival, 5, 9, "peer3"⟩

/-- Of two blocks at one height the first is the tip, until the other's branch grows. -/
theorem tip_selection_sample :
    ∃ s s', node_run plainHash [.receive sampleTwin, .receive sampleRival] = .ok s ∧
      s.heap.map BlockIndex.n_height_ = [0, 1, 1] ∧ (∃ e, s.TipAt 1 e) ∧
      run (step plainHash) s [.receive sampleRivalChild] = .ok s' ∧
      ∃ t e, s'.g_best_index = some t ∧ s'.heap[t]? = some e ∧ s.g_best_height < e.n_height_ := by
  obtain ⟨s, hs, hfork⟩ := holdsAfter_iff.mp (show holdsAfter
    (node_run plainHash [.receive sampleTwin, .receive sampleRival])
      (fun s => s.g_best_index = some 1 ∧ s.heap.map BlockIndex.n_height_ = [0, 1, 1] ∧
        holdsAfter (step plainHash s (.receive sampleRivalChild))
          (fun s' => s'.g_best_index = some 3)) = true by decide)
  obtain ⟨hindex, hheights, hnext⟩ := of_decide_eq_true hfork
  obtain ⟨s', hs', hmoved⟩ := holdsAfter_iff.mp hnext
  have hrun : run (step plainHash) s [.receive sampleRivalChild] = .ok s' :=
    (run_singleton _ _ _).trans hs'
  obtain ⟨⟨t, e, ht, -⟩, hlater, -⟩ := tip_selection plainHash _ s hs
  obtain rfl : 1 = t := Option.some.inj (hindex.symm.trans ht.index)
  obtain ⟨-, hsame | ⟨t, e', ht', he', -, hhigher⟩⟩ := hlater _ s' hrun
  · rw [of_decide_eq_true hmoved, hindex] at hsame
    exact absurd hsame (by decide)
  · exact ⟨s, s', hs, hheights, ⟨e, ht⟩, hrun, t, e', ht', he', hhigher⟩

end Xcoin
