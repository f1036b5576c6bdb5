import Xcoin.Node.Cascade

/-! When the assertion of `accept_block` holds, and which orphans a delivery leaves behind. -/

namespace Xcoin

open Lib.Runs Lib.StdMaps

variable {H : BlockHash} {s s' : Node} {b : Block}

structure Node.Resolved (s : Node) : Prop where
  waits : ∀ {k : String} {b : Block}, (k, b) ∈ s.g_orphan_prev_blocks → k ∉ s.g_block_index
  apart : ∀ {k : String}, k ∈ s.g_orphan_blocks → k ∉ s.g_block_index

lemma no_orphans_resolved (hs : s.Sound H) (hnone : s.g_orphan_prev_blocks = []) :
    s.Resolved where
  waits hm := by simp [hnone] at hm
  apart ho := by
    obtain ⟨b, hb⟩ := StdMap.mem_iff_lookup.mp ho
    have hwaits := hs.agree.waits hb
    rw [hnone] at hwaits
    exact absurd hwaits List.not_mem_nil

/-- The loop invariant of a cascade: what is left to connect waits in the queue. -/
structure Node.Draining (q : List String) (s : Node) : Prop where
  queued : ∀ {k : String}, k ∈ q → k ∈ s.g_block_index
  waits : ∀ {k : String} {b : Block}, (k, b) ∈ s.g_orphan_prev_blocks → k ∈ s.g_block_index → k ∈ q
  apart : ∀ {k : String}, k ∈ s.g_orphan_blocks → k ∉ s.g_block_index

lemma Node.Draining.resolved (h : s.Draining []) : s.Resolved where
  waits hm hk := by simpa using h.waits hm hk
  apart := h.apart

lemma draining_pass {k : String} {q : List String} {bs : List Block} (hd : s.Draining (k :: q))
    (hs : s.Sound H) (h : PassDone H k bs s s') : s'.Draining (q ++ bs.map H.get_hash) where
  queued {l} hl := by
    rw [h.grows.mem_index]
    cases List.mem_append.mp hl with
    | inl hl => exact Or.inl (hd.queued (List.mem_cons_of_mem _ hl))
    | inr hl =>
      obtain ⟨x, hx, rfl⟩ := List.mem_map.mp hl
      exact Or.inr ⟨x, hx, rfl⟩
  waits {l x} hm hl := by
    rw [h.waiting, Multimap.mem_erase] at hm
    apply List.mem_append.mpr
    rcases h.grows.mem_index.mp hl with hl | ⟨y, hy, rfl⟩
    · rcases List.mem_cons.mp (hd.waits hm.1 hl) with rfl | hq
      · exact (hm.2 rfl).elim
      · exact Or.inl hq
    · exact Or.inr (List.mem_map.mpr ⟨y, hy, rfl⟩)
  apart {l} ho hl := by
    obtain ⟨x, hx⟩ := StdMap.mem_iff_lookup.mp ho
    obtain ⟨hx, hne⟩ := h.orphans.mp hx
    rcases h.grows.mem_index.mp hl with hl | ⟨y, hy, rfl⟩
    · exact hd.apart (StdMap.mem_of_lookup hx) hl
    · obtain ⟨hprev, hly⟩ := hs.agree.stored (h.sub y hy)
      obtain rfl : x = y := Option.some.inj (hx.symm.trans hly)
      exact hne hprev.symm

theorem connect_orphans_resolves {hash : String} (hs : s.Sound H) (hd : s.Draining [hash]) :
    ∃ s', connect_orphans H hash s = .ok s' ∧ s'.Resolved := by
  cases hc : connect_orphans H hash s with
  | ok s' =>
    have hrule := connect_loop_rule (I := Node.Draining) (fun hd hs hp => draining_pass hd hs hp)
      hs hd hc
    exact ⟨s', rfl, hrule.2.resolved⟩
  | error d =>
    obtain ⟨-, k, q, t, ht, hk⟩ := connect_loop_error (I := Node.Draining)
      (fun hd hs hp => draining_pass hd hs hp) hs hd (by simp) hc
    exact (hk (ht.queued List.mem_cons_self)).elim

lemma draining_grow (hr : s.Resolved) (hb : ¬ s.Known (H.get_hash b)) {p : Addr}
    {parent : BlockIndex} :
    Node.Draining [H.get_hash b] { s with toChain := s.toChain.grow H b p parent } where
  queued {k} hk := by
    obtain rfl := List.mem_singleton.mp hk
    change H.get_hash b ∈ (s.toChain.grow H b p parent).g_block_index
    rw [grow_index, StdMap.mem_emplace]
    exact Or.inl rfl
  waits {k x} hm hk := by
    change k ∈ (s.toChain.grow H b p parent).g_block_index at hk
    rw [grow_index, StdMap.mem_emplace] at hk
    rcases hk with rfl | hk
    · exact List.mem_singleton.mpr rfl
    · exact (hr.waits hm hk).elim
  apart {k} ho hk := by
    change k ∈ (s.toChain.grow H b p parent).g_block_index at hk
    rw [grow_index, StdMap.mem_emplace] at hk
    rcases hk with rfl | hk
    · exact hb (Or.inr ho)
    · exact hr.apart ho hk

def Node.HasChildWaiting (H : BlockHash) (s : Node) (b : Block) : Prop :=
  b.prev_hash_ = H.get_hash b ∨ ∃ o, (H.get_hash b, o) ∈ s.g_orphan_prev_blocks

lemma mem_range_store {x : Block} :
    x ∈ (s.store H b).g_orphan_prev_blocks.equal_range (H.get_hash b) ↔
      (H.get_hash b, x) ∈ s.g_orphan_prev_blocks ∨ (b.prev_hash_ = H.get_hash b ∧ x = b) := by
  rw [Multimap.mem_equal_range, mem_store, eq_comm (a := H.get_hash b)]

lemma store_idle (h : ¬ s.HasChildWaiting H b) :
    connect_orphans H (H.get_hash b) (s.store H b) = .ok (s.store H b) := by
  have hnone : ∀ p ∈ (s.store H b).g_orphan_prev_blocks, p.1 ≠ H.get_hash b := by
    rintro ⟨k, x⟩ hp rfl
    rcases mem_range_store.mp (Multimap.mem_equal_range.mpr hp) with hm | ⟨hself, -⟩
    · exact h (Or.inr ⟨x, hm⟩)
    · exact h (Or.inl hself)
  have hrange : (s.store H b).g_orphan_prev_blocks.equal_range (H.get_hash b) = [] := by
    rw [Multimap.equal_range, List.filter_eq_nil_iff.mpr (by simpa using hnone), List.map_nil]
  have herase : (s.store H b).g_orphan_prev_blocks.erase (H.get_hash b) =
      (s.store H b).g_orphan_prev_blocks := List.filter_eq_self.mpr (by simpa using hnone)
  rw [connect_orphans, connect_loop_cons, hrange]
  change connect_loop H _ [] { s.store H b with
    g_orphan_prev_blocks := (s.store H b).g_orphan_prev_blocks.erase (H.get_hash b) } = _
  rw [herase, connect_loop]

lemma store_fails (hs : s.Sound H) (hr : s.Resolved) (hb : ¬ s.Known (H.get_hash b))
    (h : s.HasChildWaiting H b) :
    connect_orphans H (H.get_hash b) (s.store H b) = .error (.assertion .accept_block) := by
  have hkb : H.get_hash b ∉ s.g_block_index := fun h => hb (Or.inl h)
  have hmem : ∀ x ∈ (s.store H b).g_orphan_prev_blocks.equal_range (H.get_hash b),
      H.get_hash x ∉ s.g_block_index ∧ x.prev_hash_ = H.get_hash b := by
    intro x hx
    rcases mem_range_store.mp hx with hm | ⟨hself, rfl⟩
    · obtain ⟨hprev, hl⟩ := hs.agree.stored hm
      exact ⟨hr.apart (StdMap.mem_of_lookup hl), hprev.symm⟩
    · exact ⟨hkb, hself⟩
  cases hrange : (s.store H b).g_orphan_prev_blocks.equal_range (H.get_hash b) with
  | nil =>
    have hne : ∃ x, x ∈ (s.store H b).g_orphan_prev_blocks.equal_range (H.get_hash b) := by
      rcases h with hself | ⟨o, ho⟩
      · exact ⟨b, mem_range_store.mpr (Or.inr ⟨hself, rfl⟩)⟩
      · exact ⟨o, mem_range_store.mpr (Or.inl ho)⟩
    simp [hrange] at hne
  | cons o os =>
    obtain ⟨hko, hpo⟩ := hmem o (by rw [hrange]; exact List.mem_cons_self)
    have hfail : connect_range H (o :: os) [] (s.store H b) =
        .error (.assertion .accept_block) :=
      connect_range_fails (store_sound hs fun h => hb (Or.inr h)).chain hko
        (by rw [hpo]; exact hkb)
    rw [connect_orphans, connect_loop_cons, hrange, hfail]
    rfl

def Node.SafeToReceive (H : BlockHash) (s : Node) (b : Block) : Prop :=
  s.Known (H.get_hash b) ∨ b.prev_hash_ ∈ s.g_block_index ∨ ¬ s.HasChildWaiting H b

/-- From a resolved state, a delivery stops exactly when its block is a new orphan that
another orphan waits for; otherwise it leaves the pool resolved. -/
theorem process_block_resolved (hs : s.Sound H) (hr : s.Resolved) (b : Block) :
    (s.SafeToReceive H b ∧ ∃ r s', b.process_block H s = .ok (r, s') ∧ s'.Resolved) ∨
      (¬ s.SafeToReceive H b ∧ b.process_block H s = .error (.assertion .accept_block)) := by
  rcases process_block_spec hs b with ⟨hk, hp⟩ | ⟨hk, hn, hp⟩ | ⟨hk, p, parent, hl, hpe, hp⟩
  · exact Or.inl ⟨Or.inl hk, false, s, hp, hr⟩
  · rw [hp]
    by_cases hw : s.HasChildWaiting H b
    · refine Or.inr ⟨?_, by rw [store_fails hs hr hk hw]; rfl⟩
      rintro (h | h | h)
      · exact hk h
      · exact hn h
      · exact h hw
    · rw [store_idle hw]
      refine Or.inl ⟨Or.inr (Or.inr hw), true, s.store H b, rfl, ?_, ?_⟩
      · intro k x hm
        rcases mem_store.mp hm with hm | ⟨rfl, -⟩
        · exact hr.waits hm
        · exact hn
      · intro k ho
        rcases StdMap.mem_emplace.mp ho with rfl | ho
        · exact fun h => hk (Or.inl h)
        · exact hr.apart ho
  · have hfresh : H.get_hash b ∉ s.g_block_index := fun h => hk (Or.inl h)
    have hg := Chain.Grows.single hfresh hl hpe
    obtain ⟨s', hc, hr'⟩ := connect_orphans_resolves
      (s := { s with toChain := s.toChain.grow H b p parent }) ⟨hg.sound hs.chain, hs.agree⟩
      (draining_grow hr hk)
    rw [hp, hc]
    exact Or.inl ⟨Or.inr (Or.inl (StdMap.mem_of_lookup hl)), true, s', rfl, hr'⟩

lemma receive_resolved (hs : s.Sound H) (hr : s.Resolved) (h : step H s (.receive b) = .ok s') :
    s'.Resolved := by
  obtain ⟨⟨r, t⟩, hp, rfl⟩ := map_ok.mp h
  rcases process_block_resolved hs hr b with ⟨-, r', t', hok, hr'⟩ | ⟨-, herr⟩
  · rw [hok, Except.ok.injEq, Prod.mk.injEq] at hp
    obtain ⟨rfl, rfl⟩ := hp
    exact hr'
  · rw [herr] at hp
    simp at hp

lemma start_resolved : (Node.start H).Resolved where
  waits hm := by simp [Node.start] at hm
  apart ho := by simp [Node.start] at ho

theorem on_mine_resolved {nonce : Int32} {name : String} {d : Block} (hH : CollisionFree H)
    (hs : s.Sound H) (hr : s.Resolved) (h : on_mine H nonce name s = .ok (d, s')) :
    s'.Resolved ↔ ∀ o, (H.get_hash d, o) ∉ s.g_orphan_prev_blocks := by
  obtain ⟨-, hpool, t, e, ht, rfl, hin, hcases⟩ := on_mine_advances hs h
  have hwait : s'.g_orphan_prev_blocks = s.g_orphan_prev_blocks :=
    congrArg OrphanPool.g_orphan_prev_blocks hpool
  have horph : s'.g_orphan_blocks = s.g_orphan_blocks :=
    congrArg OrphanPool.g_orphan_blocks hpool
  constructor
  · intro hr' o ho
    exact hr'.waits (hwait ▸ ho) hin
  · intro hnone
    rcases hcases with ⟨-, rfl⟩ | ⟨hk, had, -⟩
    · exact hr
    · refine ⟨?_, ?_⟩
      · intro k x hm hkx
        rw [hwait] at hm
        rcases had.grows.mem_index.mp hkx with hkx | ⟨y, hy, rfl⟩
        · exact hr.waits hm hkx
        · obtain rfl := List.mem_singleton.mp hy
          exact hnone x hm
      · intro k ho hkx
        rw [horph] at ho
        rcases had.grows.mem_index.mp hkx with hkx | ⟨y, hy, rfl⟩
        · exact hr.apart ho hkx
        · -- an orphan with the new block's header has the tip as its parent
          obtain rfl := List.mem_singleton.mp hy
          obtain ⟨x, hx⟩ := StdMap.mem_iff_lookup.mp ho
          have hhead := (hH _ _).mp (hs.agree.key hx)
          have hprev : x.prev_hash_ = e.hash_ := (congrArg Header.prev_hash_ hhead).symm
          exact hr.waits (hs.agree.waits hx) (hprev ▸ hs.chain.tree.entry_mem ht.entry)

end Xcoin
