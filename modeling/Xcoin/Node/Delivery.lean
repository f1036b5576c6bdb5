import Xcoin.Node.Reception

/-! The assertion of `accept_block` over runs of deliveries, and what any run does to the
orphan maps. Heights are integers, the code's `int` while no chain has 2^31 blocks. -/

namespace Xcoin

open Lib.Runs Lib.StdMaps

variable {H : BlockHash} {s : Node}

lemma deliveries_resolved {bs : List Block}
    (h : run (fun s b => step H s (.receive b)) (Node.start H) bs = .ok s) :
    s.Sound H ∧ s.Resolved := by
  refine run_invariant (P := fun s => s.Sound H ∧ s.Resolved) ?_ ⟨start_sound, start_resolved⟩ h
  rintro s b t ⟨hs, hr⟩ ht
  exact ⟨(step_advances hs ht).1, receive_resolved hs hr ht⟩

/-- A run of deliveries meets no failing assertion in `accept_block` exactly when no
delivered block is a new orphan that another orphan, or itself, names as parent. -/
theorem deliveries_assertion_iff (H : BlockHash) (bs : List Block) :
    node_run H (bs.map .receive) ≠ .error (.assertion .accept_block) ↔
      ∀ pre b post s, bs = pre ++ b :: post → node_run H (pre.map .receive) = .ok s →
        s.SafeToReceive H b := by
  simp only [node_run_eq, run_map]
  constructor
  · rintro hrun pre b post s rfl hpre
    obtain ⟨hs, hr⟩ := deliveries_resolved hpre
    by_contra hbad
    rcases process_block_resolved hs hr b with ⟨hsafe, -⟩ | ⟨-, herr⟩
    · exact hbad hsafe
    · exact hrun (run_error_iff.mpr ⟨pre, b, post, s, rfl, hpre, map_error.mpr herr⟩)
  · intro hall herr
    obtain ⟨pre, b, post, s, rfl, hpre, hb⟩ := run_error_iff.mp herr
    obtain ⟨hs, hr⟩ := deliveries_resolved hpre
    rcases process_block_resolved hs hr b with ⟨-, r, t, hok, -⟩ | ⟨hbad, -⟩
    · simp [step, hok] at hb
    · exact hbad (hall pre b post s rfl hpre)

-- `SHA1` of genesis and of three blocks built on it, one after another
def sampleDigests : String → Digest
  | "050" => #v[0x8f, 0xd4, 0xd7, 0xb5, 0x89, 0x55, 0x21, 0x16, 0x84, 0x1c,
      0xde, 0xb0, 0xd2, 0xfa, 0x2e, 0xfc, 0xbb, 0x04, 0xfe, 0xc9]
  | "8fd4d7b589552116841cdeb0d2fa2efcbb4fec9157" => #v[0x08, 0xac, 0xde, 0x5f, 0x42, 0x0b, 0xd8,
      0xc2, 0x53, 0xbe, 0xd2, 0x2b, 0xd8, 0xd4, 0x27, 0x48, 0xb8, 0x56, 0x47, 0x34]
  | "8acde5f42bd8c253bed22bd8d42748b8564734258" => #v[0xa7, 0x82, 0x7b, 0x20, 0x6c, 0x5e, 0x01,
      0xd6, 0x10, 0xf5, 0xb4, 0xb1, 0xdd, 0xd7, 0xb2, 0x17, 0x60, 0x16, 0x37, 0xa4]
  | "a7827b206c5e1d610f5b4b1ddd7b217601637a4359" => #v[0xea, 0xb6, 0xc8, 0x85, 0xf2, 0x75, 0x7e,
      0xd9, 0xe9, 0xe1, 0xe2, 0xdc, 0xab, 0x20, 0x76, 0x0c, 0x6b, 0xc1, 0x3e, 0xa9]
  | _ => Vector.replicate 20 0

def samplePeer1 : Block := ⟨1, "8fd4d7b589552116841cdeb0d2fa2efcbb4fec9", 5, 7, "peer1"⟩
def samplePeer2 : Block := ⟨2, "8acde5f42bd8c253bed22bd8d42748b8564734", 5, 8, "peer2"⟩
def samplePeer3 : Block := ⟨3, "a7827b206c5e1d610f5b4b1ddd7b217601637a4", 5, 9, "peer3"⟩

example : samplePeer3.prev_hash_ = samplePeer2.get_hash sampleDigests := by decide

theorem deliveries_assertion_fails :
    ¬ ∀ bs : List Block, node_run (.ofSHA1 sampleDigests) (bs.map .receive) ≠
      .error (.assertion .accept_block) :=
  fun h => h [samplePeer3, samplePeer2] (by decide)

theorem orphan_maps_agree (H : BlockHash) (es : List Event) (s : Node)
    (h : node_run H es = .ok s) : s.toOrphanPool.Agree H :=
  (node_run_sound h).1.agree

def sampleStray : Block := ⟨9, "elsewhere", 5, 0, "peer3"⟩

-- two orphans, and the parent of the first
def sampleOrphanRun : List Event :=
  [.receive samplePeer2, .receive sampleStray, .receive samplePeer1]

theorem orphan_maps_agree_sample :
    ∃ s, node_run (.ofSHA1 sampleDigests) sampleOrphanRun = .ok s ∧
      samplePeer2.get_hash sampleDigests ∉ s.g_orphan_blocks ∧
      sampleStray.get_hash sampleDigests ∈ s.g_orphan_blocks ∧
      s.toOrphanPool.Agree (.ofSHA1 sampleDigests) := by
  obtain ⟨s, hs, ho⟩ := holdsAfter_iff.mp (show holdsAfter
    (node_run (.ofSHA1 sampleDigests) sampleOrphanRun)
      (fun s => samplePeer2.get_hash sampleDigests ∉ s.g_orphan_blocks ∧
        sampleStray.get_hash sampleDigests ∈ s.g_orphan_blocks) = true by decide)
  obtain ⟨hremoved, hkept⟩ := of_decide_eq_true ho
  exact ⟨s, hs, hremoved, hkept, orphan_maps_agree _ _ s hs⟩

theorem known_blocks_kept (H : BlockHash) (es : List Event) (s : Node)
    (h : node_run H es = .ok s) :
    (∀ fs t, run (step H) s fs = .ok t →
      (∀ k, s.Known k → t.Known k) ∧
      ∀ k a e, s.g_block_index.lookup k = some a → s.heap[a]? = some e →
        t.g_block_index.lookup k = some a ∧ ∃ e', t.heap[a]? = some e' ∧
          e'.hash_ = e.hash_ ∧ e'.pprev_ = e.pprev_ ∧ e'.n_height_ = e.n_height_) ∧
    (∀ b : Block, s.Known (H.get_hash b) → b.process_block H s = .ok (false, s)) ∧
    (∀ b : Block, ∀ r t, b.process_block H s = .ok (r, t) →
      (r = false ↔ s.Known (H.get_hash b)) ∧ t.Known (H.get_hash b)) ∧
    (∀ b : Block, ¬ s.Known (H.get_hash b) → (∃ t, b.process_block H s = .ok (true, t)) ∨
      b.process_block H s = .error (.assertion .accept_block)) := by
  obtain ⟨hs, -⟩ := node_run_sound h
  refine ⟨?_, ?_, ?_, ?_⟩
  · intro fs t ht
    obtain ⟨-, bs, had⟩ := run_advances hs ht
    refine ⟨fun k hk => had.known hk, ?_⟩
    intro k a e hk he
    obtain ⟨e', he', hag⟩ := had.grows.keeps.entry he
    exact ⟨had.grows.keeps.lookup hk, e', he', hag.hash, hag.pprev, hag.height⟩
  · intro b hb
    rcases process_block_spec hs b with ⟨-, hp⟩ | ⟨hn, -⟩ | ⟨hn, -⟩
    · exact hp
    · exact (hn hb).elim
    · exact (hn hb).elim
  · intro b r t hp
    obtain ⟨bs, htakes⟩ := process_block_takes hs hp
    refine ⟨?_, htakes.known⟩
    rcases process_block_spec hs b with ⟨hk, he⟩ | ⟨hn, -, he⟩ | ⟨hn, _, _, -, -, he⟩
    · rw [he] at hp
      obtain ⟨rfl, -⟩ : false = r ∧ s = t := by simpa using hp
      exact ⟨fun _ => hk, fun _ => rfl⟩
    · rw [he, map_pair_ok] at hp
      obtain ⟨rfl, -⟩ := hp
      exact ⟨fun h => by simp at h, fun h => (hn h).elim⟩
    · rw [he, map_pair_ok] at hp
      obtain ⟨rfl, -⟩ := hp
      exact ⟨fun h => by simp at h, fun h => (hn h).elim⟩
  · intro b hb
    cases hp : b.process_block H s with
    | error d => exact Or.inr (congrArg Except.error (process_block_error hs hp))
    | ok x =>
      obtain ⟨r, t⟩ := x
      rcases process_block_spec hs b with ⟨hk, -⟩ | ⟨-, -, he⟩ | ⟨-, _, _, -, -, he⟩
      · exact (hb hk).elim
      · rw [he, map_pair_ok] at hp
        exact Or.inl ⟨t, by rw [← hp.1]⟩
      · rw [he, map_pair_ok] at hp
        exact Or.inl ⟨t, by rw [← hp.1]⟩

theorem known_blocks_kept_sample :
    ∃ s, node_run (.ofSHA1 sampleDigests) [.mine 4 "peer0", .receive samplePeer2] = .ok s ∧
      samplePeer2.process_block (.ofSHA1 sampleDigests) s = .ok (false, s) := by
  obtain ⟨s, hs, hk⟩ := holdsAfter_iff.mp (show holdsAfter
    (node_run (.ofSHA1 sampleDigests) [.mine 4 "peer0", .receive samplePeer2])
      (fun s => s.Known (samplePeer2.get_hash sampleDigests)) = true by decide)
  exact ⟨s, hs, (known_blocks_kept _ _ s hs).2.1 samplePeer2 (of_decide_eq_true hk)⟩

structure Node.NoStrandedOrphan (s : Node) : Prop where
  orphans : ∀ {k : String} {b : Block}, s.g_orphan_blocks.lookup k = some b →
    b.prev_hash_ ∉ s.g_block_index
  waiting : ∀ {k : String} {b : Block}, (k, b) ∈ s.g_orphan_prev_blocks →
    b.prev_hash_ ∉ s.g_block_index
  apart : ∀ {k : String}, ¬ (k ∈ s.g_block_index ∧ k ∈ s.g_orphan_blocks)

lemma resolved_iff (hs : s.Sound H) : s.NoStrandedOrphan ↔ s.Resolved := by
  constructor
  · intro h
    refine ⟨fun hm => ?_, fun ho hk => h.apart ⟨hk, ho⟩⟩
    rw [(hs.agree.stored hm).1]
    exact h.waiting hm
  · intro h
    refine ⟨fun hl => h.waits (hs.agree.waits hl), fun hm => ?_, fun hk => h.apart hk.2 hk.1⟩
    rw [← (hs.agree.stored hm).1]
    exact h.waits hm

def Node.AwaitsMined (H : BlockHash) (s : Node) (nonce : Int32) (name : String) : Prop :=
  ∃ blk_idx o, s.deref s.g_best_index = .ok blk_idx ∧
    (H.get_hash (Block.of_index blk_idx nonce name), o) ∈ s.g_orphan_prev_blocks

lemma awaits_mined_iff {nonce : Int32} {name : String} {d : Block} {t : Node} (hs : s.Sound H)
    (h : on_mine H nonce name s = .ok (d, t)) :
    s.AwaitsMined H nonce name ↔ ∃ o, (H.get_hash d, o) ∈ s.g_orphan_prev_blocks := by
  obtain ⟨-, -, a, e, ha, rfl, -⟩ := on_mine_advances hs h
  have hderef : s.deref s.g_best_index = .ok e := by
    rw [Chain.deref, ha.index, Option.bind_some, ha.entry]
  constructor
  · rintro ⟨x, o, hx, ho⟩
    obtain rfl : e = x := by simpa [hderef] using hx
    exact ⟨o, ho⟩
  · rintro ⟨o, ho⟩
    exact ⟨e, o, hderef, ho⟩

/-- No orphan is stranded anywhere along a run exactly when no mining step of the run
mines a block that an orphan waits for: `on_mine` does not call `connect_orphans`. -/
theorem no_stranded_orphan_iff (H : BlockHash) (hH : CollisionFree H) (es : List Event) (s : Node)
    (h : node_run H es = .ok s) :
    (∀ pre post t, es = pre ++ post → node_run H pre = .ok t → t.NoStrandedOrphan) ↔
      ∀ pre nonce name post t, es = pre ++ .mine nonce name :: post →
        node_run H pre = .ok t → ¬ t.AwaitsMined H nonce name := by
  constructor
  · rintro hall pre nonce name post t rfl hpre haw
    obtain ⟨hs, -⟩ := node_run_sound hpre
    obtain ⟨v, hv, -⟩ := (run_cons_ok _).mp (node_run_from h hpre)
    rw [node_run_eq] at hpre
    have hstrand := hall (pre ++ [.mine nonce name]) post v (by simp)
      (by rw [node_run_eq]; exact (run_snoc_ok _).mpr ⟨t, hpre, hv⟩)
    obtain ⟨⟨d, w⟩, hm, rfl⟩ := map_ok.mp hv
    obtain ⟨o, ho⟩ := (awaits_mined_iff hs hm).mp haw
    obtain ⟨hsw, hpool, -, -, -, -, hin, -⟩ := on_mine_advances hs hm
    have hwait : w.g_orphan_prev_blocks = t.g_orphan_prev_blocks :=
      congrArg OrphanPool.g_orphan_prev_blocks hpool
    exact ((resolved_iff hsw).mp hstrand).waits (hwait ▸ ho) hin
  · intro hall pre post t hes ht
    rw [node_run_eq] at ht
    have hres : t.Sound H ∧ t.Resolved := by
      refine run_invariant_at (P := fun t => t.Sound H ∧ t.Resolved)
        ⟨start_sound, start_resolved⟩ ?_ ht
      rintro pre' ev post' u v rfl hu ⟨hsu, hru⟩ hv
      obtain ⟨hsv, -⟩ := step_advances hsu hv
      refine ⟨hsv, ?_⟩
      cases ev with
      | mine nonce name =>
        have hno := hall pre' nonce name (post' ++ post) u (by simp [hes])
          (by rw [node_run_eq, hu])
        obtain ⟨⟨d, w⟩, hm, rfl⟩ := map_ok.mp hv
        rw [awaits_mined_iff hsu hm] at hno
        exact (on_mine_resolved hH hsu hru hm).mpr fun o ho => hno ⟨o, ho⟩
      | receive b =>
        exact receive_resolved hsu hru hv
    exact (resolved_iff hres.1).mpr hres.2

def sampleTwin : Block := ⟨1, g_genesis_hash, 5, 7, "peer1"⟩
def sampleTwinChild : Block := ⟨2, plainHash.get_hash sampleTwin, 5, 8, "peer2"⟩

-- an orphan, its parent, and a block mined on top of both
def sampleTwinRun : List Event :=
  [.receive sampleTwinChild, .receive sampleTwin, .mine 3 "peer0"]

theorem no_stranded_orphan_sample :
    (∃ t, node_run plainHash [.receive sampleTwinChild] = .ok t ∧
      plainHash.get_hash sampleTwinChild ∈ t.g_orphan_blocks) ∧
    ∃ s, node_run plainHash sampleTwinRun = .ok s ∧
      ∀ pre post t, sampleTwinRun = pre ++ post → node_run plainHash pre = .ok t →
        t.NoStrandedOrphan := by
  obtain ⟨t, ht, horphan⟩ := holdsAfter_iff.mp (show holdsAfter
    (node_run plainHash [.receive sampleTwinChild])
      (fun t => plainHash.get_hash sampleTwinChild ∈ t.g_orphan_blocks) = true by decide)
  obtain ⟨u, hu, hnone⟩ := holdsAfter_iff.mp (show holdsAfter
    (node_run plainHash [.receive sampleTwinChild, .receive sampleTwin])
      (fun u => u.g_orphan_prev_blocks = []) = true by decide)
  obtain ⟨s, hs, -⟩ := holdsAfter_iff.mp
    (show holdsAfter (node_run plainHash sampleTwinRun) (fun _ => true) = true by decide)
  refine ⟨⟨t, ht, of_decide_eq_true horphan⟩, s, hs, ?_⟩
  apply (no_stranded_orphan_iff plainHash plainHash_collisionFree _ s hs).mpr
  rintro pre nonce name post v hrun hv ⟨_, o, -, ho⟩
  -- the only mining step comes when the orphan has been connected
  obtain rfl : pre = [.receive sampleTwinChild, .receive sampleTwin] := by
    rcases pre with _ | ⟨a, _ | ⟨b, _ | ⟨c, pre⟩⟩⟩
    · simp [sampleTwinRun] at hrun
    · simp [sampleTwinRun] at hrun
    · simp only [sampleTwinRun, List.cons_append, List.nil_append, List.cons.injEq] at hrun
      rw [← hrun.1, ← hrun.2.1]
    · simp [sampleTwinRun] at hrun
  obtain rfl := Except.ok.inj (hu.symm.trans hv)
  rw [of_decide_eq_true hnone] at ho
  exact nomatch ho

theorem stranded_orphan :
    ¬ ∀ H : BlockHash, CollisionFree H → ∀ es s, node_run H es = .ok s → s.NoStrandedOrphan := by
  intro hall
  obtain ⟨s, hs, ho⟩ := holdsAfter_iff.mp (show holdsAfter
    (node_run plainHash [.receive sampleTwinChild, .mine 7 "peer0"])
      (fun s => sampleTwinChild.prev_hash_ ∈ s.g_block_index ∧
        s.g_orphan_blocks.lookup (plainHash.get_hash sampleTwinChild) =
          some sampleTwinChild) = true by decide)
  obtain ⟨hp, hl⟩ := of_decide_eq_true ho
  exact (hall plainHash plainHash_collisionFree _ s hs).orphans hl hp

end Xcoin
