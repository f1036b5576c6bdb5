import Xcoin.Ping.Flood

/-! Hop counts: the hop of a peer's first ping is the length of a simple path from the
initiator, along which each peer forwarded on its own first receipt. -/

namespace Xcoin

open Relation

variable {V : Type} (G : Peers V)

-- `pre` is what had been delivered when `f` came first to its peer
def FirstReceipt (fs pre : List (Frame V)) (f : Frame V) : Prop :=
  (∃ post, fs = pre ++ f :: post) ∧ ∀ g ∈ pre, g.dst ≠ f.dst

/-- A simple path of first receipts, each sent by the peer before it on its own first
receipt, which came earlier. -/
structure RelayPath (peer0 : V) (start_us : Int64) (fs : List (Frame V)) (path : List V) (v : V) :
    Prop where
  head : path.head? = some peer0
  last : path.getLast? = some v
  simple : path.Nodup
  edges : path.IsChain G.Edge
  relayed : ∀ {i : ℕ} {u w : V}, path[i]? = some u → path[i + 1]? = some w →
    ∃ pre f, FirstReceipt fs pre f ∧ f.dst = w ∧ f ∈ G.broadcast_ping u start_us (i + 1) ∧
      (i ≠ 0 → ∃ pre' g, FirstReceipt pre pre' g ∧ g.dst = u ∧ g.msg.hop = i)

noncomputable def Peers.distance (u v : V) : ℕ :=
  sInf {n | ∃ path : List V, path.head? = some u ∧ path.getLast? = some v ∧
    path.IsChain G.Edge ∧ path.length = n + 1}

variable {G} {peer0 u v w : V} {start_us : Int64} {fs pre : List (Frame V)} {f : Frame V}

lemma mem_broadcast {start : Int64} {hop : ℤ} :
    f ∈ G.broadcast_ping u start hop ↔
      f.src = u ∧ G.Edge u f.dst ∧ f.msg = PingMsg.new start hop (G.msg_size_ u) := by
  simp only [Peers.broadcast_ping, Multiset.mem_map, Finset.mem_val, Peers.Edge]
  constructor
  · rintro ⟨v, hv, rfl⟩
    exact ⟨rfl, hv, rfl⟩
  · rintro ⟨rfl, hv, hm⟩
    exact ⟨f.dst, hv, by rw [← hm]⟩

lemma broadcast_msg {start : Int64} {hop : ℤ} (h : f ∈ G.broadcast_ping u start hop) :
    f.msg.start_us = start ∧ f.msg.hop = hop := by
  rw [(mem_broadcast.mp h).2.2]
  exact ⟨rfl, rfl⟩

lemma FirstReceipt.mono (h : FirstReceipt fs pre f) (x : Frame V) :
    FirstReceipt (fs ++ [x]) pre f := by
  obtain ⟨⟨post, rfl⟩, hfirst⟩ := h
  exact ⟨⟨post ++ [x], by simp⟩, hfirst⟩

lemma FirstReceipt.mem (h : FirstReceipt fs pre f) : f ∈ fs := by
  obtain ⟨⟨post, rfl⟩, -⟩ := h
  simp

lemma first_receipt_snoc {x : Frame V} (h : FirstReceipt (fs ++ [x]) pre f) :
    FirstReceipt fs pre f ∨ (pre = fs ∧ f = x) := by
  obtain ⟨⟨post, hfs⟩, hfirst⟩ := h
  rcases List.eq_nil_or_concat post with rfl | ⟨post, y, rfl⟩
  · obtain ⟨rfl, hx⟩ := List.append_inj' hfs rfl
    exact Or.inr ⟨rfl, (List.singleton_inj.mp hx).symm⟩
  · rw [List.concat_eq_append, ← List.cons_append, ← List.append_assoc] at hfs
    obtain ⟨rfl, -⟩ := List.append_inj' hfs rfl
    exact Or.inl ⟨⟨post, rfl⟩, hfirst⟩

namespace RelayPath

variable {path : List V}

lemma mono (h : RelayPath G peer0 start_us fs path v) (x : Frame V) :
    RelayPath G peer0 start_us (fs ++ [x]) path v where
  head := h.head
  last := h.last
  simple := h.simple
  edges := h.edges
  relayed hu hw := by
    obtain ⟨pre, f, hfirst, hf⟩ := h.relayed hu hw
    exact ⟨pre, f, hfirst.mono x, hf⟩

lemma received (h : RelayPath G peer0 start_us fs path v) (hw : w ∈ path) :
    w = peer0 ∨ ∃ f ∈ fs, f.dst = w := by
  obtain ⟨i, hi⟩ := List.mem_iff_getElem?.mp hw
  cases i with
  | zero =>
    rw [← List.head?_eq_getElem?, h.head] at hi
    exact Or.inl (Option.some.inj hi).symm
  | succ i =>
    have hlt : i < path.length := by
      have := (List.getElem?_eq_some_iff.mp hi).choose
      omega
    obtain ⟨pre, f, hfirst, hf, -⟩ := h.relayed (List.getElem?_eq_getElem hlt) hi
    exact Or.inr ⟨f, hfirst.mem, hf⟩

lemma length_pos (h : RelayPath G peer0 start_us fs path v) : 0 < path.length := by
  cases path with
  | nil => simpa using h.head
  | cons x path => exact Nat.succ_pos _

lemma distance_le (h : RelayPath G peer0 start_us fs path v) :
    G.distance peer0 v + 1 ≤ path.length := by
  have hpos := h.length_pos
  have hle : G.distance peer0 v ≤ path.length - 1 :=
    Nat.sInf_le ⟨path, h.head, h.last, h.edges, by omega⟩
  omega

/-- A path is extended by the peer whose first receipt its last peer has sent. -/
lemma snoc (h : RelayPath G peer0 start_us fs path f.src)
    (hf : f ∈ G.broadcast_ping f.src start_us path.length) (hv : f.dst ≠ peer0)
    (hnew : ∀ g ∈ fs, g.dst ≠ f.dst) :
    RelayPath G peer0 start_us (fs ++ [f]) (path ++ [f.dst]) f.dst where
  head := by
    rw [List.head?_append, h.head]
    rfl
  last := by simp
  simple := by
    rw [List.nodup_append]
    refine ⟨h.simple, List.nodup_singleton _, ?_⟩
    intro a ha b hb hab
    obtain rfl := List.mem_singleton.mp hb
    rcases h.received (hab ▸ ha) with hp | ⟨g, hg, hgd⟩
    · exact hv hp
    · exact hnew g hg hgd
  edges := by
    apply h.edges.append (List.isChain_singleton _)
    intro a ha b hb
    rw [h.last] at ha
    obtain rfl : f.src = a := Option.some.inj ha
    obtain rfl : f.dst = b := by simpa using hb
    exact (mem_broadcast.mp hf).2.1
  relayed {i u w} hu hw := by
    have hpos := h.length_pos
    have hi : i + 1 < path.length + 1 := by
      simpa using (List.getElem?_eq_some_iff.mp hw).choose
    rw [List.getElem?_append_left (by omega)] at hu
    by_cases hlt : i + 1 < path.length
    · rw [List.getElem?_append_left hlt] at hw
      obtain ⟨pre, g, hfirst, hg⟩ := h.relayed hu hw
      exact ⟨pre, g, hfirst.mono f, hg⟩
    · -- the last link: its sender ends the old path
      have hlen : path.length = i + 1 := by omega
      have hsrc : f.src = u := by
        have hlast := h.last
        rw [List.getLast?_eq_getElem?, hlen, Nat.add_sub_cancel, hu] at hlast
        exact (Option.some.inj hlast).symm
      have hdst : f.dst = w := by
        rw [List.getElem?_append_right (by omega), hlen, Nat.sub_self] at hw
        simpa using hw
      refine ⟨fs, f, ⟨⟨[], rfl⟩, hnew⟩, hdst, ?_, ?_⟩
      · rw [← hsrc]
        rw [hlen] at hf
        exact_mod_cast hf
      · intro hi0
        obtain ⟨j, rfl⟩ : ∃ j, i = j + 1 := ⟨i - 1, by omega⟩
        have hj : path[j]? = some path[j] := List.getElem?_eq_getElem (by omega)
        obtain ⟨pre, g, hfirst, hg, hsent, -⟩ := h.relayed hj hu
        exact ⟨pre, g, hfirst, hg, by rw [(broadcast_msg hsent).2]; push_cast; rfl⟩

end RelayPath

variable [DecidableEq V]

inductive Flood.Delivers (G : Peers V) (s : Flood V) : List (Frame V) → Flood V → Prop
  | refl : Flood.Delivers G s [] s
  | step {fs : List (Frame V)} {t : Flood V} {f : Frame V} :
      Flood.Delivers G s fs t → f ∈ t.in_flight → Flood.Delivers G s (fs ++ [f]) (G.buf_read_cb f t)

variable {s t : Flood V}

theorem reachable_iff : ReflTransGen (Flood.Step G) s t ↔ ∃ fs, s.Delivers G fs t := by
  constructor
  · intro h
    induction h with
    | refl => exact ⟨[], .refl⟩
    | tail _ hst ih =>
      obtain ⟨fs, hfs⟩ := ih
      cases hst with
      | deliver hf => exact ⟨_, hfs.step hf⟩
  · rintro ⟨fs, h⟩
    induction h with
    | refl => exact .refl
    | step _ hf ih => exact ih.tail (.deliver hf)

structure HopSound (G : Peers V) (peer0 : V) (start_us : Int64) (fs : List (Frame V))
    (s : Flood V) : Prop where
  received : ∀ {v : V}, s.G_RECEIVED v = true ↔ v = peer0 ∨ ∃ f ∈ fs, f.dst = v
  delivered : ∀ {f : Frame V}, f ∈ s.delivered ↔ f ∈ fs
  sent : ∀ {f : Frame V}, f ∈ s.in_flight ∨ f ∈ fs → ∃ path,
    RelayPath G peer0 start_us fs path f.src ∧ f ∈ G.broadcast_ping f.src start_us path.length
  first : ∀ {pre : List (Frame V)} {f : Frame V}, FirstReceipt fs pre f → f.dst ≠ peer0 →
    ∃ path, RelayPath G peer0 start_us fs path f.dst ∧ (path.length : ℤ) = f.msg.hop + 1

lemma init_hops : HopSound G peer0 start_us [] (G.init_ping peer0 start_us) where
  received {v} := by simp [Peers.init_ping, Function.update_apply]
  delivered {f} := by simp [Peers.init_ping]
  sent {f} hf := by
    have hsent : f ∈ G.broadcast_ping peer0 start_us 1 := by simpa [Peers.init_ping] using hf
    obtain ⟨rfl, -, -⟩ := mem_broadcast.mp hsent
    refine ⟨[f.src], ⟨rfl, rfl, List.nodup_singleton _, List.isChain_singleton _, ?_⟩, hsent⟩
    intro i u w _ hw
    simp at hw
  first h := by simpa using h.mem

namespace HopSound

lemma received_snoc (h : HopSound G peer0 start_us fs s) (f : Frame V) {v : V} :
    (G.buf_read_cb f s).G_RECEIVED v = true ↔ v = peer0 ∨ ∃ g ∈ fs ++ [f], g.dst = v := by
  simp only [Peers.buf_read_cb, Function.update_apply, List.mem_append, List.mem_singleton]
  by_cases hv : v = f.dst
  · rw [if_pos hv]
    exact iff_of_true rfl (Or.inr ⟨f, Or.inr rfl, hv.symm⟩)
  · rw [if_neg hv, h.received]
    apply or_congr_right
    constructor
    · rintro ⟨g, hg, hd⟩
      exact ⟨g, Or.inl hg, hd⟩
    · rintro ⟨g, hg | rfl, hd⟩
      · exact ⟨g, hg, hd⟩
      · exact (hv hd.symm).elim

theorem deliver (h : HopSound G peer0 start_us fs s) (hf : f ∈ s.in_flight) :
    HopSound G peer0 start_us (fs ++ [f]) (G.buf_read_cb f s) := by
  obtain ⟨path, hpath, hsent⟩ := h.sent (Or.inl hf)
  have hold : ∀ {g : Frame V}, g ∈ s.in_flight.erase f ∨ g ∈ fs ++ [f] → ∃ path,
      RelayPath G peer0 start_us (fs ++ [f]) path g.src ∧
        g ∈ G.broadcast_ping g.src start_us path.length := by
    intro g hg
    have hg' : g ∈ s.in_flight ∨ g ∈ fs := by
      rcases hg with hg | hg
      · exact Or.inl (Multiset.mem_of_mem_erase hg)
      · rcases List.mem_append.mp hg with hg | hg
        · exact Or.inr hg
        · exact Or.inl (List.mem_singleton.mp hg ▸ hf)
    obtain ⟨path, hpath, hsent⟩ := h.sent hg'
    exact ⟨path, hpath.mono f, hsent⟩
  have hnew : s.G_RECEIVED f.dst = false → f.dst ≠ peer0 ∧ ∀ g ∈ fs, g.dst ≠ f.dst := by
    intro hr
    have hno := (h.received (v := f.dst)).not.mp (by simp [hr])
    exact ⟨fun hp => hno (Or.inl hp), fun g hg hd => hno (Or.inr ⟨g, hg, hd⟩)⟩
  refine ⟨h.received_snoc f, ?_, ?_, ?_⟩
  · intro g
    simp only [Peers.buf_read_cb, Multiset.mem_cons, h.delivered, List.mem_append,
      List.mem_singleton]
    exact or_comm
  · intro g hg
    cases hr : s.G_RECEIVED f.dst with
    | true =>
      simp only [Peers.buf_read_cb, hr, if_true, add_zero] at hg
      exact hold hg
    | false =>
      simp only [Peers.buf_read_cb, hr, Bool.false_eq_true, if_false, Multiset.mem_add] at hg
      rcases hg with (hg | hg) | hg
      · exact hold (Or.inl hg)
      · -- a frame that the peer forwards on this first receipt
        obtain ⟨hv, hfirst⟩ := hnew hr
        obtain ⟨hstart, hhop⟩ := broadcast_msg hsent
        have hsrc := (mem_broadcast.mp hg).1
        refine ⟨path ++ [f.dst], hsrc ▸ hpath.snoc hsent hv hfirst, ?_⟩
        rw [hstart, hhop] at hg
        rw [hsrc, List.length_append, List.length_singleton]
        exact_mod_cast hg
      · exact hold (Or.inr hg)
  · intro pre g hg hv
    rcases first_receipt_snoc hg with hg | ⟨rfl, rfl⟩
    · obtain ⟨path, hpath, hlen⟩ := h.first hg hv
      exact ⟨path, hpath.mono f, hlen⟩
    · refine ⟨path ++ [g.dst], hpath.snoc hsent hv hg.2, ?_⟩
      rw [(broadcast_msg hsent).2, List.length_append, List.length_singleton]
      push_cast
      rfl

end HopSound

theorem delivers_hops (h : (G.init_ping peer0 start_us).Delivers G fs s) :
    HopSound G peer0 start_us fs s := by
  generalize hinit : G.init_ping peer0 start_us = s₀ at h
  induction h with
  | refl => exact hinit ▸ init_hops
  | step _ hf ih => exact ih.deliver hf

/-- Along any deliveries after `init_ping`, a peer's first ping carries the length of a simple
path of first receipts as its hop, so no hop exceeds the number of peers. -/
theorem hop_counts [Fintype V] (G : Peers V) (peer0 : V) (start_us : Int64) (fs : List (Frame V))
    (s : Flood V) (h : (G.init_ping peer0 start_us).Delivers G fs s) :
    (∀ f ∈ s.in_flight + s.delivered,
      f.msg.start_us = start_us ∧ 1 ≤ f.msg.hop ∧ f.msg.hop ≤ Fintype.card V) ∧
    (∀ pre f, FirstReceipt fs pre f → f.dst ≠ peer0 →
      ∃ path, RelayPath G peer0 start_us fs path f.dst ∧ (path.length : ℤ) = f.msg.hop + 1 ∧
        (G.distance peer0 f.dst : ℤ) ≤ f.msg.hop ∧ f.msg.hop ≤ Fintype.card V - 1) ∧
    (Fintype.card V < 2 ^ 31 →
      (∀ f ∈ s.in_flight + s.delivered, f.msg.hop < 2 ^ 31) ∧
      ∀ pre f, FirstReceipt fs pre f → f.dst ≠ peer0 → f.msg.hop + 1 < 2 ^ 31) := by
  have hs := delivers_hops h
  have hframe : ∀ f ∈ s.in_flight + s.delivered,
      f.msg.start_us = start_us ∧ 1 ≤ f.msg.hop ∧ f.msg.hop ≤ Fintype.card V := by
    intro f hf
    rw [Multiset.mem_add, hs.delivered] at hf
    obtain ⟨path, hpath, hsent⟩ := hs.sent hf
    obtain ⟨hstart, hhop⟩ := broadcast_msg hsent
    have hpos := hpath.length_pos
    have hcard := hpath.simple.length_le_card
    rw [hhop]
    exact ⟨hstart, by exact_mod_cast hpos, by exact_mod_cast hcard⟩
  have hfirst : ∀ pre f, FirstReceipt fs pre f → f.dst ≠ peer0 →
      ∃ path, RelayPath G peer0 start_us fs path f.dst ∧ (path.length : ℤ) = f.msg.hop + 1 ∧
        (G.distance peer0 f.dst : ℤ) ≤ f.msg.hop ∧ f.msg.hop ≤ Fintype.card V - 1 := by
    intro pre f hf hv
    obtain ⟨path, hpath, hlen⟩ := hs.first hf hv
    have hdist := hpath.distance_le
    have hcard := hpath.simple.length_le_card
    exact ⟨path, hpath, hlen, by omega, by omega⟩
  refine ⟨hframe, hfirst, ?_⟩
  intro hcard
  constructor
  · intro f hf
    have hle := (hframe f hf).2.2
    omega
  · intro pre f hf hv
    obtain ⟨-, -, -, -, hle⟩ := hfirst pre f hf hv
    omega

theorem hop_counts_sample :
    ∃ fs s f, (sampleFlood.init_ping 2 7).Delivers sampleFlood fs s ∧
      FirstReceipt fs fs.dropLast f ∧
      f.dst = 1 ∧ f.msg.hop = 2 ∧
      ∃ path, RelayPath sampleFlood 2 7 fs path 1 ∧ (path.length : ℤ) = 3 := by
  let first : Frame (Fin 3) := ⟨2, 0, PingMsg.new 7 1 0⟩
  let second : Frame (Fin 3) := ⟨0, 1, PingMsg.new 7 2 0⟩
  have hone : (sampleFlood.init_ping 2 7).Delivers sampleFlood [first]
      (sampleFlood.buf_read_cb first (sampleFlood.init_ping 2 7)) := .step .refl (by decide)
  have hrun : (sampleFlood.init_ping 2 7).Delivers sampleFlood [first, second]
      (sampleFlood.buf_read_cb second
        (sampleFlood.buf_read_cb first (sampleFlood.init_ping 2 7))) :=
    .step hone (by decide)
  have hfirst : FirstReceipt [first, second] [first] second := ⟨⟨[], rfl⟩, by decide⟩
  obtain ⟨path, hpath, hlen, -⟩ :=
    (hop_counts sampleFlood 2 7 _ _ hrun).2.1 [first] second hfirst (by decide)
  exact ⟨_, _, second, hrun, hfirst, rfl, rfl, path, hpath, hlen⟩

end Xcoin
