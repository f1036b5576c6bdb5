import Xcoin.Blocks.History

/-! The orphan maps and `connect_orphans`. A stored `Block*` is the block's value. -/

namespace Xcoin

open Lib.Runs Lib.StdMaps

variable (H : BlockHash)

structure OrphanPool where
  g_orphan_blocks : StdMap String Block
  g_orphan_prev_blocks : Multimap String Block
  deriving DecidableEq

structure Node extends Chain, OrphanPool
  deriving DecidableEq

-- the inner loop: its body leaves `g_orphan_prev_blocks` alone, so the range is fixed
def connect_range : List Block → List String → Node → Except Fault (List String × Node)
  | [], work_q, s => .ok (work_q, s)
  | orphan_blk :: rest, work_q, s => do
    let (accepted, c) ← orphan_blk.accept_block H s.toChain
    let work_q := if accepted then work_q ++ [H.get_hash orphan_blk] else work_q
    connect_range rest work_q { s with
      toChain := c
      g_orphan_blocks := s.g_orphan_blocks.erase (H.get_hash orphan_blk) }

-- the outer loop, over the part of `work_q` not scanned yet
def connect_loop : ℕ → List String → Node → Except Fault Node
  | _, [], s => .ok s
  | 0, _ :: _, _ => .error .diverged
  | fuel + 1, prev_hash :: work_q, s => do
    let (work_q, s) ← connect_range H (s.g_orphan_prev_blocks.equal_range prev_hash) work_q s
    connect_loop fuel work_q { s with
      g_orphan_prev_blocks := s.g_orphan_prev_blocks.erase prev_hash }

-- one pass for `hash` and at most one more for every orphan
def connect_orphans (hash : String) (s : Node) : Except Fault Node :=
  connect_loop H (s.g_orphan_prev_blocks.length + 1) [hash] s

variable {H} {s s' : Node} {os : List Block} {q q' : List String}

/-- What the inner loop did to the node when it scanned the orphans `os` and
inserted the blocks `bs` among them. -/
structure RangeDone (H : BlockHash) (os bs : List Block) (s s' : Node) : Prop where
  grows : s.toChain.Grows H bs s'.toChain
  sub : bs.Sublist os
  known : ∀ b ∈ os, H.get_hash b ∈ s'.g_block_index
  waiting : s'.g_orphan_prev_blocks = s.g_orphan_prev_blocks
  orphans : ∀ {k : String} {b : Block}, s'.g_orphan_blocks.lookup k = some b ↔
    s.g_orphan_blocks.lookup k = some b ∧ ∀ o ∈ os, H.get_hash o ≠ k

lemma connect_range_cons (o : Block) :
    connect_range H (o :: os) q s =
      o.accept_block H s.toChain >>= fun r =>
        connect_range H os (if r.1 then q ++ [H.get_hash o] else q) { s with
          toChain := r.2
          g_orphan_blocks := s.g_orphan_blocks.erase (H.get_hash o) } := rfl

theorem connect_range_done (hs : s.toChain.Sound H) (h : connect_range H os q s = .ok (q', s')) :
    ∃ bs, q' = q ++ bs.map H.get_hash ∧ RangeDone H os bs s s' := by
  induction os generalizing q s with
  | nil =>
    obtain ⟨rfl, rfl⟩ : q = q' ∧ s = s' := by simpa [connect_range] using h
    exact ⟨[], by simp, .refl, .refl _, by simp, rfl, by simp⟩
  | cons o os ih =>
    rw [connect_range_cons, bind_ok] at h
    obtain ⟨⟨r, c⟩, ha, h⟩ := h
    have hsound : c.Sound H := by
      rcases accept_block_grows hs ha with ⟨-, rfl, -⟩ | ⟨-, hg, -⟩
      · exact hs
      · exact hg.sound hs
    obtain ⟨bs, rfl, hd⟩ := ih hsound h
    have horphans : ∀ {k : String} {b : Block}, s'.g_orphan_blocks.lookup k = some b ↔
        s.g_orphan_blocks.lookup k = some b ∧ ∀ x ∈ o :: os, H.get_hash x ≠ k := by
      intro k b
      rw [hd.orphans, StdMap.lookup_erase_iff]
      simp only [List.forall_mem_cons]
      constructor
      · rintro ⟨⟨hne, hl⟩, hall⟩
        exact ⟨hl, hne.symm, hall⟩
      · rintro ⟨hl, hne, hall⟩
        exact ⟨⟨hne.symm, hl⟩, hall⟩
    rcases accept_block_grows hs ha with ⟨rfl, rfl, hk⟩ | ⟨rfl, hg, -⟩
    · refine ⟨bs, by simp, hd.grows, hd.sub.cons o, ?_, hd.waiting, horphans⟩
      intro b hb
      rcases List.mem_cons.mp hb with rfl | hb
      · exact hd.grows.mem_mono hk
      · exact hd.known b hb
    · refine ⟨o :: bs, by simp, hg.trans hd.grows, hd.sub.cons_cons o, ?_, hd.waiting, horphans⟩
      intro b hb
      rcases List.mem_cons.mp hb with rfl | hb
      · exact hd.grows.mem_mono (hg.mem_index.mpr (Or.inr ⟨b, List.mem_cons_self, rfl⟩))
      · exact hd.known b hb

theorem connect_range_total (hs : s.toChain.Sound H)
    (hprev : ∀ o ∈ os, o.prev_hash_ ∈ s.g_block_index) :
    ∃ r, connect_range H os q s = .ok r := by
  induction os generalizing q s with
  | nil => exact ⟨(q, s), rfl⟩
  | cons o os ih =>
    rw [connect_range_cons]
    have hrest : ∀ x ∈ os, x.prev_hash_ ∈ s.g_block_index :=
      fun x hx => hprev x (List.mem_cons_of_mem _ hx)
    rcases accept_block_spec hs.tree o with ⟨-, ha⟩ | ⟨-, hn, -⟩ | ⟨hk, p, parent, hp, hpe, -, ha⟩
    · rw [ha]
      exact ih hs hrest
    · exact (hn (hprev o List.mem_cons_self)).elim
    · rw [ha]
      have hg := Chain.Grows.single hk hp hpe
      exact ih (hg.sound hs) fun x hx => hg.mem_mono (hrest x hx)

theorem connect_range_fails (hs : s.toChain.Sound H) {o : Block}
    (hk : H.get_hash o ∉ s.g_block_index) (hp : o.prev_hash_ ∉ s.g_block_index) :
    connect_range H (o :: os) q s = .error (.assertion .accept_block) := by
  rw [connect_range_cons]
  rcases accept_block_spec hs.tree o with ⟨h, -⟩ | ⟨-, -, ha⟩ | ⟨-, p, parent, hl, -⟩
  · exact (hk h).elim
  · rw [ha]
    rfl
  · exact (hp (StdMap.mem_of_lookup hl)).elim

lemma connect_range_error (hs : s.toChain.Sound H) {d : Fault}
    (h : connect_range H os q s = .error d) : d = .assertion .accept_block := by
  induction os generalizing q s with
  | nil => simp [connect_range] at h
  | cons o os ih =>
    rw [connect_range_cons] at h
    rcases accept_block_spec hs.tree o with ⟨-, ha⟩ | ⟨-, -, ha⟩ | ⟨hk, p, parent, hp, hpe, -, ha⟩
    · rw [ha] at h
      refine ih ?_ h
      exact hs
    · rw [ha] at h
      exact (Except.error.inj h).symm
    · rw [ha] at h
      refine ih ?_ h
      exact (Chain.Grows.single hk hp hpe).sound hs

structure OrphanPool.Agree (H : BlockHash) (p : OrphanPool) : Prop where
  key : ∀ {k : String} {b : Block}, p.g_orphan_blocks.lookup k = some b → k = H.get_hash b
  listed : ∀ {k : String} {b : Block}, p.g_orphan_blocks.lookup k = some b →
    p.g_orphan_prev_blocks.count (b.prev_hash_, b) = 1
  stored : ∀ {k : String} {b : Block}, (k, b) ∈ p.g_orphan_prev_blocks →
    k = b.prev_hash_ ∧ p.g_orphan_blocks.lookup (H.get_hash b) = some b

lemma OrphanPool.Agree.waits {p : OrphanPool} (hp : p.Agree H) {k : String} {b : Block}
    (h : p.g_orphan_blocks.lookup k = some b) : (b.prev_hash_, b) ∈ p.g_orphan_prev_blocks :=
  List.count_pos_iff.mp (by rw [hp.listed h]; exact Nat.one_pos)

structure Node.Sound (H : BlockHash) (s : Node) : Prop where
  chain : s.toChain.Sound H
  agree : s.toOrphanPool.Agree H

structure PassDone (H : BlockHash) (prev_hash : String) (bs : List Block) (s s' : Node) : Prop where
  grows : s.toChain.Grows H bs s'.toChain
  sub : ∀ b ∈ bs, (prev_hash, b) ∈ s.g_orphan_prev_blocks
  known : ∀ b, (prev_hash, b) ∈ s.g_orphan_prev_blocks → H.get_hash b ∈ s'.g_block_index
  waiting : s'.g_orphan_prev_blocks = s.g_orphan_prev_blocks.erase prev_hash
  orphans : ∀ {k : String} {b : Block}, s'.g_orphan_blocks.lookup k = some b ↔
    s.g_orphan_blocks.lookup k = some b ∧ b.prev_hash_ ≠ prev_hash
  shrinks : s'.g_orphan_prev_blocks.length + bs.length ≤ s.g_orphan_prev_blocks.length

lemma RangeDone.pass {prev_hash : String} {bs : List Block} (hs : s.Sound H)
    (h : RangeDone H (s.g_orphan_prev_blocks.equal_range prev_hash) bs s s') :
    PassDone H prev_hash bs s { s' with
      g_orphan_prev_blocks := s'.g_orphan_prev_blocks.erase prev_hash } where
  grows := h.grows
  sub b hb := Multimap.mem_equal_range.mp (h.sub.mem hb)
  known b hb := h.known b (Multimap.mem_equal_range.mpr hb)
  waiting := by rw [← h.waiting]
  orphans {k b} := by
    rw [h.orphans]
    refine and_congr_right fun hl => ⟨?_, ?_⟩
    · intro hall hprev
      have hw := hs.agree.waits hl
      rw [hprev] at hw
      exact hall b (Multimap.mem_equal_range.mpr hw) (hs.agree.key hl).symm
    · rintro hne o ho rfl
      obtain ⟨rfl, hlo⟩ := hs.agree.stored (Multimap.mem_equal_range.mp ho)
      obtain rfl : b = o := Option.some.inj (hl.symm.trans hlo)
      exact hne rfl
  shrinks := by
    have hlen := h.sub.length_le
    have hall := Multimap.equal_range_length_add_erase_length s.g_orphan_prev_blocks prev_hash
    rw [h.waiting]
    change (s.g_orphan_prev_blocks.erase prev_hash).length + bs.length ≤ _
    omega

lemma PassDone.sound {prev_hash : String} {bs : List Block} (hs : s.Sound H)
    (h : PassDone H prev_hash bs s s') : s'.Sound H where
  chain := h.grows.sound hs.chain
  agree := {
    key := fun hl => hs.agree.key (h.orphans.mp hl).1
    listed := fun {k b} hl => by
      obtain ⟨hl, hne⟩ := h.orphans.mp hl
      rw [h.waiting, Multimap.erase, List.count_filter (by simpa using hne)]
      exact hs.agree.listed hl
    stored := fun {k b} hb => by
      rw [h.waiting, Multimap.mem_erase] at hb
      obtain ⟨rfl, hl⟩ := hs.agree.stored hb.1
      exact ⟨rfl, h.orphans.mpr ⟨hl, hb.2⟩⟩ }

lemma connect_loop_cons (fuel : ℕ) (prev_hash : String) :
    connect_loop H (fuel + 1) (prev_hash :: q) s =
      connect_range H (s.g_orphan_prev_blocks.equal_range prev_hash) q s >>= fun r =>
        connect_loop H fuel r.1 { r.2 with
          g_orphan_prev_blocks := r.2.g_orphan_prev_blocks.erase prev_hash } := rfl

theorem connect_loop_rule {I : List String → Node → Prop}
    (hpass : ∀ {prev_hash : String} {q : List String} {bs : List Block} {s s' : Node},
      I (prev_hash :: q) s → s.Sound H → PassDone H prev_hash bs s s' →
        I (q ++ bs.map H.get_hash) s')
    {fuel : ℕ} (hs : s.Sound H) (hI : I q s) (h : connect_loop H fuel q s = .ok s') :
    s'.Sound H ∧ I [] s' := by
  induction fuel generalizing q s with
  | zero =>
    cases q with
    | nil =>
      obtain rfl : s = s' := by simpa [connect_loop] using h
      exact ⟨hs, hI⟩
    | cons k q => simp [connect_loop] at h
  | succ fuel ih =>
    cases q with
    | nil =>
      obtain rfl : s = s' := by simpa [connect_loop] using h
      exact ⟨hs, hI⟩
    | cons k q =>
      rw [connect_loop_cons, bind_ok] at h
      obtain ⟨⟨q₁, s₁⟩, hr, h⟩ := h
      obtain ⟨bs, rfl, hd⟩ := connect_range_done hs.chain hr
      have hp := hd.pass hs
      exact ih (hp.sound hs) (hpass hI hs hp) h

/-- With enough fuel, the outer loop only stops at the assertion, on scanning a hash that
is not in the index: a pass takes one hash from the queue and adds at most one for each
orphan it removes. -/
theorem connect_loop_error {I : List String → Node → Prop}
    (hpass : ∀ {prev_hash : String} {q : List String} {bs : List Block} {s s' : Node},
      I (prev_hash :: q) s → s.Sound H → PassDone H prev_hash bs s s' →
        I (q ++ bs.map H.get_hash) s')
    {fuel : ℕ} (hs : s.Sound H) (hI : I q s)
    (hfuel : s.g_orphan_prev_blocks.length + q.length ≤ fuel) {d : Fault}
    (h : connect_loop H fuel q s = .error d) :
    d = .assertion .accept_block ∧
      ∃ prev_hash q' t, I (prev_hash :: q') t ∧ prev_hash ∉ t.g_block_index := by
  induction fuel generalizing q s with
  | zero =>
    obtain rfl : q = [] := List.length_eq_zero_iff.mp (by omega)
    simp [connect_loop] at h
  | succ fuel ih =>
    cases q with
    | nil => simp [connect_loop] at h
    | cons k q =>
      rw [connect_loop_cons, bind_error] at h
      rcases h with hr | ⟨⟨q₁, s₁⟩, hr, h⟩
      · refine ⟨connect_range_error hs.chain hr, k, q, s, hI, ?_⟩
        intro hk
        have hprev : ∀ o ∈ s.g_orphan_prev_blocks.equal_range k,
            o.prev_hash_ ∈ s.g_block_index := by
          intro o ho
          rw [← (hs.agree.stored (Multimap.mem_equal_range.mp ho)).1]
          exact hk
        obtain ⟨r, hok⟩ := connect_range_total (q := q) hs.chain hprev
        rw [hok] at hr
        simp at hr
      · obtain ⟨bs, rfl, hd⟩ := connect_range_done hs.chain hr
        have hp := hd.pass hs
        refine ih (hp.sound hs) (hpass hI hs hp) ?_ h
        have hshrinks : (s₁.g_orphan_prev_blocks.erase k).length + bs.length ≤
            s.g_orphan_prev_blocks.length := hp.shrinks
        simp only [List.length_append, List.length_map, List.length_cons] at hfuel ⊢
        omega

end Xcoin
