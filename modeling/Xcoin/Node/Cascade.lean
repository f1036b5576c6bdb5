import Xcoin.Node.Node

/-! What a cascade of orphans, and then any step of the node, can do to its state. -/

namespace Xcoin

open Lib.Runs Lib.StdMaps

variable {H : BlockHash} {s s' s'' : Node} {b : Block}

/-- The chain grew by the blocks `bs`, and an orphan left its map only for the index. -/
structure Node.Advances (H : BlockHash) (bs : List Block) (s s' : Node) : Prop where
  grows : s.toChain.Grows H bs s'.toChain
  kept : ∀ {k : String} {b : Block}, s.g_orphan_blocks.lookup k = some b →
    s'.g_orphan_blocks.lookup k = some b ∨ k ∈ s'.g_block_index

namespace Node.Advances

variable {bs bs' : List Block}

lemma refl (s : Node) : s.Advances H [] s where
  grows := .refl
  kept := Or.inl

lemma trans (h : s.Advances H bs s') (h' : s'.Advances H bs' s'') :
    s.Advances H (bs ++ bs') s'' where
  grows := h.grows.trans h'.grows
  kept hl := by
    cases h.kept hl with
    | inl hl => exact h'.kept hl
    | inr hk => exact Or.inr (h'.grows.mem_mono hk)

lemma known (h : s.Advances H bs s') {k : String} (hk : s.Known k) : s'.Known k := by
  cases hk with
  | inl hk => exact Or.inl (h.grows.mem_mono hk)
  | inr hk =>
    obtain ⟨b, hl⟩ := StdMap.mem_iff_lookup.mp hk
    cases h.kept hl with
    | inl hl => exact Or.inr (StdMap.mem_of_lookup hl)
    | inr hk => exact Or.inl hk

end Node.Advances

lemma pass_advances {k : String} {bs : List Block} (hs : s.Sound H) (h : PassDone H k bs s s') :
    s.Advances H bs s' where
  grows := h.grows
  kept {l x} hl := by
    by_cases hx : x.prev_hash_ = k
    · have hw := hs.agree.waits hl
      rw [hx] at hw
      exact Or.inr (hs.agree.key hl ▸ h.known x hw)
    · exact Or.inl (h.orphans.mpr ⟨hl, hx⟩)

theorem connect_orphans_advances {hash : String} (hs : s.Sound H)
    (h : connect_orphans H hash s = .ok s') :
    s'.Sound H ∧ ∃ bs, s.Advances H bs s' ∧ (∀ b ∈ bs, (b.prev_hash_, b) ∈ s.g_orphan_prev_blocks) ∧
      ∀ {k : String} {b : Block}, s'.g_orphan_blocks.lookup k = some b →
        s.g_orphan_blocks.lookup k = some b := by
  let I : List String → Node → Prop := fun _ t =>
    ∃ bs, s.Advances H bs t ∧ (∀ b ∈ bs, (b.prev_hash_, b) ∈ s.g_orphan_prev_blocks) ∧
      (∀ p ∈ t.g_orphan_prev_blocks, p ∈ s.g_orphan_prev_blocks) ∧
      ∀ {k : String} {b : Block}, t.g_orphan_blocks.lookup k = some b →
        s.g_orphan_blocks.lookup k = some b
  have hI : I [hash] s := ⟨[], .refl s, by simp, fun _ hp => hp, id⟩
  obtain ⟨hsound, bs, had, hpool, -, hsub⟩ := connect_loop_rule (I := I) (by
    rintro k q bs' t t' ⟨bs, had, hpool, hwait, hsub⟩ ht hpass
    refine ⟨bs ++ bs', had.trans (pass_advances ht hpass), ?_, ?_, ?_⟩
    · intro x hx
      cases List.mem_append.mp hx with
      | inl hx => exact hpool x hx
      | inr hx =>
        have hm := hpass.sub x hx
        rw [(ht.agree.stored hm).1] at hm
        exact hwait _ hm
    · intro p hp
      rw [hpass.waiting, Multimap.mem_erase] at hp
      exact hwait p hp.1
    · intro l x hl
      exact hsub (hpass.orphans.mp hl).1) hs hI h
  exact ⟨hsound, bs, had, hpool, hsub⟩

lemma connect_orphans_error {hash : String} (hs : s.Sound H) {d : Fault}
    (h : connect_orphans H hash s = .error d) : d = .assertion .accept_block :=
  (connect_loop_error (I := fun _ _ => True) (fun _ _ _ => trivial) hs trivial (by simp) h).1

lemma process_block_error {d : Fault} (hs : s.Sound H) (h : b.process_block H s = .error d) :
    d = .assertion .accept_block := by
  rcases process_block_spec hs b with ⟨-, hp⟩ | ⟨hk, -, hp⟩ | ⟨hk, p, parent, hl, hpe, hp⟩
  · rw [hp] at h
    simp at h
  · rw [hp, map_error] at h
    exact connect_orphans_error (store_sound hs fun ho => hk (Or.inr ho)) h
  · rw [hp, map_error] at h
    have hg := Chain.Grows.single (fun hi => hk (Or.inl hi)) hl hpe
    exact connect_orphans_error (s := { s with toChain := s.toChain.grow H b p parent })
      ⟨hg.sound hs.chain, hs.agree⟩ h

lemma store_advances (hb : ¬ s.Known (H.get_hash b)) : s.Advances H [] (s.store H b) where
  grows := .refl
  kept {k x} hl := by
    have hne : k ≠ H.get_hash b := by
      rintro rfl
      exact hb (Or.inr (StdMap.mem_of_lookup hl))
    exact Or.inl (by rw [store_lookup fun h => hb (Or.inr h), if_neg hne, hl])

/-- What a call of `process_block` that returns did to the node. -/
structure Node.Takes (H : BlockHash) (b : Block) (bs : List Block) (s s' : Node) : Prop where
  sound : s'.Sound H
  advances : s.Advances H bs s'
  known : s'.Known (H.get_hash b)
  new : ∀ x ∈ bs, x = b ∨ (x.prev_hash_, x) ∈ s.g_orphan_prev_blocks
  orphans : ∀ {k : String} {x : Block}, s'.g_orphan_blocks.lookup k = some x →
    s.g_orphan_blocks.lookup k = some x ∨ (k = H.get_hash b ∧ x = b)

lemma orphan_takes (hs : s.Sound H) (hk : ¬ s.Known (H.get_hash b))
    (h : connect_orphans H (H.get_hash b) (s.store H b) = .ok s') :
    ∃ bs, Node.Takes H b bs s s' := by
  have hb : H.get_hash b ∉ s.g_orphan_blocks := fun h => hk (Or.inr h)
  obtain ⟨hsound, bs, had, hpool, hsub⟩ := connect_orphans_advances (store_sound hs hb) h
  refine ⟨bs, hsound, (store_advances hk).trans had, had.known (Or.inr ?_), ?_, ?_⟩
  · exact StdMap.mem_of_lookup (a := b) (by rw [store_lookup hb, if_pos rfl])
  · intro x hx
    rcases mem_store.mp (hpool x hx) with hm | ⟨-, rfl⟩
    · exact Or.inr hm
    · exact Or.inl rfl
  · intro k x hl
    have hl := hsub hl
    rw [store_lookup hb] at hl
    split at hl
    · rename_i hkb
      exact Or.inr ⟨hkb, (Option.some.inj hl).symm⟩
    · exact Or.inl hl

lemma accepted_takes {p : Addr} {parent : BlockIndex} (hs : s.Sound H)
    (hfresh : H.get_hash b ∉ s.g_block_index)
    (hl : s.g_block_index.lookup b.prev_hash_ = some p) (hp : s.heap[p]? = some parent)
    (h : connect_orphans H (H.get_hash b) { s with toChain := s.toChain.grow H b p parent } =
      .ok s') : ∃ bs, Node.Takes H b bs s s' := by
  have hg := Chain.Grows.single hfresh hl hp
  have hst : s.Advances H [b] { s with toChain := s.toChain.grow H b p parent } := ⟨hg, Or.inl⟩
  obtain ⟨hsound, bs, had, hpool, hsub⟩ :=
    connect_orphans_advances (s := { s with toChain := s.toChain.grow H b p parent })
      ⟨hg.sound hs.chain, hs.agree⟩ h
  refine ⟨[b] ++ bs, hsound, hst.trans had, had.known (Or.inl ?_), ?_, ?_⟩
  · exact hg.mem_index.mpr (Or.inr ⟨b, List.mem_cons_self, rfl⟩)
  · intro x hx
    cases List.mem_append.mp hx with
    | inl hx => exact Or.inl (List.mem_singleton.mp hx)
    | inr hx => exact Or.inr (hpool x hx)
  · exact fun hl => Or.inl (hsub hl)

theorem process_block_takes {r : Bool} (hs : s.Sound H)
    (h : b.process_block H s = .ok (r, s')) : ∃ bs, Node.Takes H b bs s s' := by
  rcases process_block_spec hs b with ⟨hk, hp⟩ | ⟨hk, -, hp⟩ | ⟨hk, p, parent, hl, hpe, hp⟩
  · rw [hp] at h
    obtain ⟨-, rfl⟩ : false = r ∧ s = s' := by simpa using h
    exact ⟨[], hs, .refl s, hk, by simp, Or.inl⟩
  · rw [hp, map_pair_ok] at h
    exact orphan_takes hs hk h.2
  · rw [hp, map_pair_ok] at h
    exact accepted_takes hs (fun h => hk (Or.inl h)) hl hpe h.2

theorem on_mine_advances {nonce : Int32} {name : String} {d : Block} (hs : s.Sound H)
    (h : on_mine H nonce name s = .ok (d, s')) :
    s'.Sound H ∧ s'.toOrphanPool = s.toOrphanPool ∧
      ∃ t e, s.TipAt t e ∧ d = Block.of_index e nonce name ∧ H.get_hash d ∈ s'.g_block_index ∧
        ((H.get_hash d ∈ s.g_block_index ∧ s' = s) ∨
          (H.get_hash d ∉ s.g_block_index ∧ s.Advances H [d] s' ∧
            s'.toChain = s.toChain.grow H d t e)) := by
  obtain ⟨t, e, ht, hcases⟩ := on_mine_spec hs nonce name
  have hprev : s.g_block_index.lookup (Block.of_index e nonce name).prev_hash_ = some t :=
    hs.chain.tree.lookup.mpr ⟨e, ht.entry, rfl⟩
  rcases hcases with ⟨hk, hm⟩ | ⟨hk, hm⟩
  · rw [hm, map_ok] at h
    obtain ⟨y, hy, hpair⟩ := h
    obtain ⟨rfl, rfl⟩ := Prod.mk.inj hpair
    obtain rfl := serialize_ok hy
    exact ⟨hs, rfl, t, e, ht, rfl, hk, Or.inl ⟨hk, rfl⟩⟩
  · rw [hm, map_ok] at h
    obtain ⟨y, hy, hpair⟩ := h
    obtain ⟨rfl, rfl⟩ := Prod.mk.inj hpair
    obtain rfl := serialize_ok hy
    have hg := Chain.Grows.single hk hprev ht.entry
    refine ⟨⟨hg.sound hs.chain, hs.agree⟩, rfl, t, e, ht, rfl, ?_, Or.inr ⟨hk, ⟨hg, Or.inl⟩, rfl⟩⟩
    exact hg.mem_index.mpr (Or.inr ⟨_, List.mem_cons_self, rfl⟩)

structure Node.MadeOf (P : Block → Prop) (s : Node) : Prop where
  entry : ∀ {a : Addr} {e : BlockIndex}, s.heap[a]? = some e →
    e.block = Block.genesis ∨ P e.block
  orphan : ∀ {k : String} {b : Block}, s.g_orphan_blocks.lookup k = some b → P b

variable {P Q : Block → Prop}

lemma Node.MadeOf.mono (h : s.MadeOf P) (hPQ : ∀ b, P b → Q b) : s.MadeOf Q where
  entry he := (h.entry he).imp id (hPQ _)
  orphan hl := hPQ _ (h.orphan hl)

lemma start_made : (Node.start H).MadeOf P where
  entry h := by
    obtain ⟨-, rfl⟩ := rooted_entry h
    exact Or.inl rfl
  orphan h := by simp [Node.start] at h

lemma grows_made {bs : List Block} (hm : s.MadeOf P) (h : s.Advances H bs s')
    (hbs : ∀ b ∈ bs, P b) {a : Addr} {e : BlockIndex} (he : s'.heap[a]? = some e) :
    e.block = Block.genesis ∨ P e.block := by
  rcases h.grows.entry he with ⟨x, hx, hag⟩ | ⟨-, hmem⟩
  · rw [hag.block]
    exact hm.entry hx
  · exact Or.inr (hbs _ hmem)

lemma receive_made {r : Bool} (hs : s.Sound H) (hm : s.MadeOf P) (hb : P b)
    (h : b.process_block H s = .ok (r, s')) : s'.MadeOf P := by
  obtain ⟨bs, ht⟩ := process_block_takes hs h
  constructor
  · apply grows_made hm ht.advances
    intro x hx
    rcases ht.new x hx with rfl | hx
    · exact hb
    · exact hm.orphan (hs.agree.stored hx).2
  · intro k x hl
    rcases ht.orphans hl with hl | ⟨-, rfl⟩
    · exact hm.orphan hl
    · exact hb

lemma mine_made {nonce : Int32} {name : String} {d : Block} (hs : s.Sound H) (hm : s.MadeOf P)
    (hd : P d) (h : on_mine H nonce name s = .ok (d, s')) : s'.MadeOf P := by
  obtain ⟨-, hpool, t, e, -, -, -, hcases⟩ := on_mine_advances hs h
  rcases hcases with ⟨-, rfl⟩ | ⟨-, had, -⟩
  · exact hm
  · constructor
    · exact grows_made hm had (by simpa using hd)
    · intro k x hl
      rw [congrArg OrphanPool.g_orphan_blocks hpool] at hl
      exact hm.orphan hl

theorem step_advances {ev : Event} (hs : s.Sound H) (h : step H s ev = .ok s') :
    s'.Sound H ∧ ∃ bs, s.Advances H bs s' := by
  cases ev with
  | mine nonce name =>
    obtain ⟨⟨d, t⟩, hm, rfl⟩ := map_ok.mp h
    obtain ⟨hsound, -, t, e, -, -, -, hcases⟩ := on_mine_advances hs hm
    rcases hcases with ⟨-, rfl⟩ | ⟨-, had, -⟩
    · exact ⟨hs, [], .refl _⟩
    · exact ⟨hsound, [d], had⟩
  | receive b =>
    obtain ⟨⟨r, t⟩, hp, rfl⟩ := map_ok.mp h
    obtain ⟨bs, ht⟩ := process_block_takes hs hp
    exact ⟨ht.sound, bs, ht.advances⟩

theorem run_advances {es : List Event} (hs : s.Sound H) (h : run (step H) s es = .ok s') :
    s'.Sound H ∧ ∃ bs, s.Advances H bs s' := by
  induction es generalizing s with
  | nil =>
    obtain rfl : s = s' := by simpa using h
    exact ⟨hs, [], .refl s⟩
  | cons ev es ih =>
    obtain ⟨t, ht, h⟩ := (run_cons_ok _).mp h
    obtain ⟨hst, bs, had⟩ := step_advances hs ht
    obtain ⟨hsound, bs', had'⟩ := ih hst h
    exact ⟨hsound, bs ++ bs', had.trans had'⟩

theorem node_run_sound {es : List Event} (h : node_run H es = .ok s) :
    s.Sound H ∧ ∃ bs, (Node.start H).Advances H bs s :=
  run_advances start_sound (node_run_eq H es ▸ h)

end Xcoin
