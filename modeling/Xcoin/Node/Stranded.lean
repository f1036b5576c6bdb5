import Xcoin.Node.Descendants

/-! An orphan whose parent is in the index has missed its cascade: it stays an orphan for ever,
and so do the orphans that wait for it. -/

namespace Xcoin

open Relation Lib.Runs Lib.StdMaps

variable {H : BlockHash} {D : Set Block} {s s' t t' : Node} {b o d : Block}

/-- Orphans that each wait for a block of the index or for one another. -/
structure Node.Stuck (H : BlockHash) (D : Set Block) (s : Node) : Prop where
  stored : ∀ {d : Block}, d ∈ D → s.g_orphan_blocks.lookup (H.get_hash d) = some d
  waits : ∀ {d : Block}, d ∈ D →
    d.prev_hash_ ∈ s.g_block_index ∨ ∃ a ∈ D, d.prev_hash_ = H.get_hash a

/-- The loop invariant of a cascade that passes by the orphans `D` of `s`. -/
structure Node.PassesBy (H : BlockHash) (D : Set Block) (s : Node) (q : List String) (t : Node) :
    Prop where
  stored : ∀ {d : Block}, d ∈ D → t.g_orphan_blocks.lookup (H.get_hash d) = some d
  kept : ∀ {k : String}, k ∈ s.g_block_index → k ∈ t.g_block_index
  absent : ∀ {d : Block}, d ∈ D → H.get_hash d ∈ t.g_block_index → H.get_hash d ∈ s.g_block_index
  queued : ∀ {k : String}, k ∈ q → k ∉ s.g_block_index ∧ ∀ d ∈ D, H.get_hash d ≠ k

lemma Chain.Grows.fresh {c c' : Chain} {bs : List Block} (h : c.Grows H bs c') (hb : b ∈ bs) :
    H.get_hash b ∉ c.g_block_index := by
  induction h with
  | refl => simp at hb
  | step hgrows hfresh _ _ ih =>
    cases List.mem_append.mp hb with
    | inl hb => exact ih hb
    | inr hb =>
      obtain rfl := List.mem_singleton.mp hb
      exact fun hk => hfresh (hgrows.mem_mono hk)

lemma passes_by_pass (hD : s.Stuck H D) {k : String} {q : List String} {bs : List Block}
    (hc : s.PassesBy H D (k :: q) t) (ht : t.Sound H) (h : PassDone H k bs t t') :
    s.PassesBy H D (q ++ bs.map H.get_hash) t' := by
  obtain ⟨hkout, hkD⟩ := hc.queued List.mem_cons_self
  have hprev : ∀ d ∈ D, d.prev_hash_ ≠ k := by
    rintro d hd rfl
    cases hD.waits hd with
    | inl hin => exact hkout hin
    | inr ha =>
      obtain ⟨a, ha, hk⟩ := ha
      exact hkD a ha hk.symm
  have hnew : ∀ x ∈ bs, ∀ d ∈ D, H.get_hash d ≠ H.get_hash x := by
    intro x hx d hd he
    obtain ⟨hk, hl⟩ := ht.agree.stored (h.sub x hx)
    rw [← he, hc.stored hd] at hl
    obtain rfl : d = x := Option.some.inj hl
    exact hprev d hd hk.symm
  constructor
  · intro d hd
    exact h.orphans.mpr ⟨hc.stored hd, hprev d hd⟩
  · exact fun hk => h.grows.mem_mono (hc.kept hk)
  · intro d hd hk
    rcases h.grows.mem_index.mp hk with hk | ⟨x, hx, he⟩
    · exact hc.absent hd hk
    · exact (hnew x hx d hd he.symm).elim
  · intro l hl
    cases List.mem_append.mp hl with
    | inl hl => exact hc.queued (List.mem_cons_of_mem _ hl)
    | inr hl =>
      obtain ⟨x, hx, rfl⟩ := List.mem_map.mp hl
      exact ⟨fun hk => h.grows.fresh hx (hc.kept hk), hnew x hx⟩

lemma cascade_passes_by (hD : s.Stuck H D) (ht : t.Sound H) {k : String}
    (hc : s.PassesBy H D [k] t) (h : connect_orphans H k t = .ok s') :
    s'.Stuck H D ∧ ∀ d ∈ D, H.get_hash d ∈ s'.g_block_index → H.get_hash d ∈ s.g_block_index := by
  obtain ⟨-, hend⟩ := connect_loop_rule (I := s.PassesBy H D)
    (fun hc ht hp => passes_by_pass hD hc ht hp) ht hc h
  refine ⟨⟨hend.stored, fun hd => ?_⟩, fun d hd => hend.absent hd⟩
  exact (hD.waits hd).imp hend.kept id

lemma Node.Stuck.known (hD : s.Stuck H D) (hd : d ∈ D) : s.Known (H.get_hash d) :=
  Or.inr (StdMap.mem_of_lookup (hD.stored hd))

theorem receive_stuck (hs : s.Sound H) (hD : s.Stuck H D)
    (h : step H s (.receive b) = .ok s') :
    s'.Stuck H D ∧ ∀ d ∈ D, H.get_hash d ∈ s'.g_block_index → H.get_hash d ∈ s.g_block_index := by
  obtain ⟨⟨r, u⟩, hp, rfl⟩ := map_ok.mp h
  rcases process_block_spec hs b with ⟨-, hb⟩ | ⟨hk, -, hb⟩ | ⟨hk, p, parent, hl, hpe, hb⟩
  · rw [hb] at hp
    obtain ⟨-, rfl⟩ : false = r ∧ s = u := by simpa using hp
    exact ⟨hD, fun _ _ => id⟩
  · rw [hb, map_pair_ok] at hp
    have hne : ∀ d ∈ D, H.get_hash d ≠ H.get_hash b := fun d hd he => hk (he ▸ hD.known hd)
    have hfresh : H.get_hash b ∉ s.g_orphan_blocks := fun ho => hk (Or.inr ho)
    refine cascade_passes_by hD (store_sound hs hfresh) ?_ hp.2
    refine ⟨fun {d} hd => ?_, id, fun _ => id, fun hq => ?_⟩
    · rw [store_lookup hfresh, if_neg (hne d hd), hD.stored hd]
    · obtain rfl := List.mem_singleton.mp hq
      exact ⟨fun hin => hk (Or.inl hin), hne⟩
  · rw [hb, map_pair_ok] at hp
    have hne : ∀ d ∈ D, H.get_hash d ≠ H.get_hash b := fun d hd he => hk (he ▸ hD.known hd)
    have hg := Chain.Grows.single (fun hin => hk (Or.inl hin)) hl hpe
    refine cascade_passes_by (t := { s with toChain := s.toChain.grow H b p parent }) hD
      ⟨hg.sound hs.chain, hs.agree⟩ ?_ hp.2
    refine ⟨hD.stored, hg.mem_mono, fun {d} hd hin => ?_, fun hq => ?_⟩
    · rcases hg.mem_index.mp hin with hin | ⟨x, hx, he⟩
      · exact hin
      · obtain rfl := List.mem_singleton.mp hx
        exact (hne d hd he.symm).elim
    · obtain rfl := List.mem_singleton.mp hq
      exact ⟨fun hin => hk (Or.inl hin), hne⟩

theorem mine_stuck {nonce : Int32} {name : String} {x : Block} (hs : s.Sound H)
    (hD : s.Stuck H D) (h : on_mine H nonce name s = .ok (x, s')) :
    s'.Stuck H D ∧ ∀ d ∈ D, H.get_hash d ∈ s'.g_block_index →
      H.get_hash d ∈ s.g_block_index ∨ H.get_hash x = H.get_hash d := by
  obtain ⟨-, hpool, t, e, -, -, -, hcases⟩ := on_mine_advances hs h
  have horphans : s'.g_orphan_blocks = s.g_orphan_blocks :=
    congrArg OrphanPool.g_orphan_blocks hpool
  rcases hcases with ⟨-, rfl⟩ | ⟨-, had, -⟩
  · exact ⟨hD, fun _ _ => Or.inl⟩
  · refine ⟨⟨fun hd => by rw [horphans, hD.stored hd], fun hd => ?_⟩, fun d _ hin => ?_⟩
    · exact (hD.waits hd).imp had.grows.mem_mono id
    · rcases had.grows.mem_index.mp hin with hin | ⟨y, hy, he⟩
      · exact Or.inl hin
      · obtain rfl := List.mem_singleton.mp hy
        exact Or.inr he

/-- A local block with the header of `d` was mined on the way. -/
def MinedTwin (H : BlockHash) (s : Node) (fs : List Event) (d : Block) : Prop :=
  ∃ pre nonce name post t x u, fs = pre ++ .mine nonce name :: post ∧
    run (step H) s pre = .ok t ∧ on_mine H nonce name t = .ok (x, u) ∧
    H.get_hash x = H.get_hash d

lemma MinedTwin.snoc {fs : List Event} (h : MinedTwin H s fs d) (ev : Event) :
    MinedTwin H s (fs ++ [ev]) d := by
  obtain ⟨pre, nonce, name, post, t, x, u, rfl, h⟩ := h
  exact ⟨pre, nonce, name, post ++ [ev], t, x, u, by simp, h⟩

theorem run_stuck {fs : List Event} (hs : s.Sound H) (hD : s.Stuck H D)
    (h : run (step H) s fs = .ok s') :
    s'.Stuck H D ∧ ∀ d ∈ D, H.get_hash d ∈ s'.g_block_index →
      H.get_hash d ∈ s.g_block_index ∨ MinedTwin H s fs d := by
  induction fs using List.reverseRecOn generalizing s' with
  | nil =>
    obtain rfl : s = s' := by simpa using h
    exact ⟨hD, fun _ _ => Or.inl⟩
  | append_singleton fs ev ih =>
    obtain ⟨u, hu, hev⟩ := (run_snoc_ok _).mp h
    obtain ⟨hDu, hold⟩ := ih hu
    obtain ⟨hsu, -⟩ := run_advances hs hu
    have hbefore : ∀ d ∈ D, H.get_hash d ∈ u.g_block_index →
        H.get_hash d ∈ s.g_block_index ∨ MinedTwin H s (fs ++ [ev]) d :=
      fun d hd hin => (hold d hd hin).imp id fun h => h.snoc ev
    cases ev with
    | receive b =>
      obtain ⟨hstuck, hnew⟩ := receive_stuck hsu hDu hev
      exact ⟨hstuck, fun d hd hin => hbefore d hd (hnew d hd hin)⟩
    | mine nonce name =>
      obtain ⟨⟨x, v⟩, hm, rfl⟩ := map_ok.mp hev
      obtain ⟨hstuck, hnew⟩ := mine_stuck hsu hDu hm
      refine ⟨hstuck, fun d hd hin => ?_⟩
      cases hnew d hd hin with
      | inl hin => exact hbefore d hd hin
      | inr he => exact Or.inr ⟨fs, nonce, name, [], u, x, v, rfl, hu, hm, he⟩

lemma descends_stuck (ho : s.g_orphan_blocks.lookup (H.get_hash o) = some o)
    (hp : o.prev_hash_ ∈ s.g_block_index) : s.Stuck H {d | d = o ∨ s.Descends H o d} where
  stored {d} hd := by
    rcases hd with rfl | hd
    · exact ho
    · exact descends_stored hd
  waits {d} hd := by
    rcases hd with rfl | hd
    · exact Or.inl hp
    · cases hd with
      | single hw => exact Or.inr ⟨o, Or.inl rfl, hw.2⟩
      | tail ha hw => exact Or.inr ⟨_, Or.inr ha, hw.2⟩

/-- Whatever follows, a stranded orphan and the orphans that wait for it are never connected:
they stay in the pool, and their hashes enter the index only with a local block of the same
header. -/
theorem stranded_for_ever (H : BlockHash) (es : List Event) (s : Node)
    (h : node_run H es = .ok s) (o : Block)
    (ho : s.g_orphan_blocks.lookup (H.get_hash o) = some o) (hp : o.prev_hash_ ∈ s.g_block_index)
    (fs : List Event) (s' : Node) (h' : run (step H) s fs = .ok s') (d : Block)
    (hd : d = o ∨ s.Descends H o d) :
    s'.g_orphan_blocks.lookup (H.get_hash d) = some d ∧
      (H.get_hash d ∈ s'.g_block_index →
        H.get_hash d ∈ s.g_block_index ∨ MinedTwin H s fs d) := by
  obtain ⟨hs, -⟩ := node_run_sound h
  obtain ⟨hstuck, hindex⟩ := run_stuck hs (descends_stuck ho hp) h'
  exact ⟨hstuck.stored hd, hindex d hd⟩

theorem stranded_for_ever_sample :
    ∃ s s', node_run plainHash [.receive sampleTwinChild, .mine 7 "peer0"] = .ok s ∧
      sampleTwinChild.prev_hash_ ∈ s.g_block_index ∧
      run (step plainHash) s [.receive sampleTwin, .receive sampleTwinChild] = .ok s' ∧
      s'.g_orphan_blocks.lookup (plainHash.get_hash sampleTwinChild) = some sampleTwinChild := by
  obtain ⟨s, hs, ho⟩ := holdsAfter_iff.mp (show holdsAfter
    (node_run plainHash [.receive sampleTwinChild, .mine 7 "peer0"])
      (fun s => sampleTwinChild.prev_hash_ ∈ s.g_block_index ∧
        s.g_orphan_blocks.lookup (plainHash.get_hash sampleTwinChild) =
          some sampleTwinChild ∧ holdsAfter (run (step plainHash) s
            [.receive sampleTwin, .receive sampleTwinChild]) (fun _ => true) = true) =
              true by decide)
  obtain ⟨hp, hl, hrun⟩ := of_decide_eq_true ho
  obtain ⟨s', hs', -⟩ := holdsAfter_iff.mp hrun
  exact ⟨s, s', hs, hp, hs',
    (stranded_for_ever plainHash _ s hs sampleTwinChild hl hp _ s' hs' _ (Or.inl rfl)).1⟩

end Xcoin
