import Xcoin.Node.Delivery
import Xcoin.Blocks.Links

/-! Forward links along the best chain, over the runs of the node. -/

namespace Xcoin

open Lib.Runs Lib.StdMaps Lib.Chase

variable (H : BlockHash)

structure Chain.ForwardLinked (c : Chain) : Prop where
  link : c.Linked
  tip : ∀ {t : Addr}, c.g_best_index = some t → c.pnext t = none
  order : ∀ {t : Addr} (n : ℕ), c.g_best_index = some t → chase c.pnext n 0 =
    if (n : ℤ) ≤ c.g_best_height then chase c.pprev (c.g_best_height.toNat - n) t else none

def Chain.NeverReorganised (c : Chain) : Prop :=
  ∀ pre b post d, c.history = pre ++ b :: post → replay H pre = .ok d → ¬ d.Reorganises b

variable {H} {c : Chain} {b : Block} {bs : List Block}

lemma init_reorganises : ¬ Chain.init.Reorganises b := by
  rintro ⟨-, p, parent, hl, -⟩
  simp [Chain.init] at hl

lemma never_reorganised_rooted : (Chain.rooted H).NeverReorganised H := by
  intro pre b post d hh hd
  cases pre with
  | nil =>
    obtain rfl : Chain.init = d := Except.ok.inj hd
    exact init_reorganises
  | cons x pre => simp [Chain.history, Chain.rooted] at hh

lemma never_reorganised_snoc {c' : Chain} (hh : c'.history = c.history ++ [b])
    (hc : replay H c.history = .ok c) :
    c'.NeverReorganised H ↔ c.NeverReorganised H ∧ ¬ c.Reorganises b := by
  constructor
  · intro h
    refine ⟨?_, h c.history b [] c hh hc⟩
    intro pre x post d hx hd
    exact h pre x (post ++ [b]) d (by rw [hh, hx, List.append_assoc, List.cons_append]) hd
  · rintro ⟨hold, hlast⟩ pre x post d hx hd
    rw [hh] at hx
    rcases List.eq_nil_or_concat post with rfl | ⟨post, y, rfl⟩
    · obtain ⟨rfl, hxb⟩ := List.append_inj' hx rfl
      obtain rfl : b = x := by simpa using hxb
      obtain rfl : c = d := Except.ok.inj (hc.symm.trans hd)
      exact hlast
    · rw [List.concat_eq_append, ← List.cons_append, ← List.append_assoc] at hx
      obtain ⟨hx, -⟩ := List.append_inj' hx rfl
      exact hold pre x post d hx hd

lemma linked_rooted : (Chain.rooted H).Linked := by
  intro a ha ha0
  obtain ⟨t, e, htip⟩ := rooted_sound (H := H) |>.tip
  have hlt := onBest_lt rooted_sound.tree htip ha
  exact (ha0 (Nat.lt_one_iff.mp hlt)).elim

theorem linked_iff (hg : H.get_hash Block.genesis = g_genesis_hash)
    (h : (Chain.rooted H).Grows H bs c) :
    c.NextSound ∧ (c.Linked ↔ c.NeverReorganised H) := by
  induction h with
  | refl => exact ⟨rooted_next hg, iff_of_true linked_rooted never_reorganised_rooted⟩
  | step h hfresh hprev hp ih =>
    obtain ⟨hn, hl⟩ := ih
    have hhist := (Chain.Grows.single hfresh hprev hp).history
    refine ⟨next_grow hn hp, ?_⟩
    rw [linked_grow (h.sound rooted_sound) hn hprev hp, hl,
      never_reorganised_snoc hhist (history_replay h).2]

theorem forward_linked_iff (hc : c.Sound H) (hn : c.NextSound) : c.ForwardLinked ↔ c.Linked := by
  obtain ⟨t, e, htip⟩ := hc.tip
  refine ⟨fun h => h.link, fun hl => ⟨hl, ?_, ?_⟩⟩
  · intro x hx
    obtain rfl : t = x := htip.eq hx
    exact tip_pnext hc.tree hn htip
  · intro x n hx
    obtain rfl : t = x := htip.eq hx
    have hpos := hc.tree.height_nonneg htip.entry
    have hroot := hc.tree.chase_root htip.entry
    rw [← htip.height] at hpos hroot
    have hback : ∀ k a q, k < c.g_best_height.toNat → chase c.pprev k t = some a →
        c.pprev a = some q → c.pnext q = some a := by
      intro k a q _ ha hq
      obtain ⟨p, hp, hpa⟩ := hl ⟨t, k, htip.index, ha⟩ (Nat.ne_zero_of_lt (pprev_lt hc.tree hq))
      obtain rfl : p = q := Option.some.inj (hp.symm.trans hq)
      exact hpa
    by_cases hle : (n : ℤ) ≤ c.g_best_height
    · rw [if_pos hle]
      exact chase_back hroot hback (by omega)
    · rw [if_neg hle]
      have hend : chase c.pnext c.g_best_height.toNat 0 = some t := by
        rw [chase_back hroot hback le_rfl, Nat.sub_self, chase_zero]
      obtain ⟨k, rfl⟩ : ∃ k, n = c.g_best_height.toNat + (k + 1) :=
        ⟨n - c.g_best_height.toNat - 1, by omega⟩
      rw [chase_add, hend, Option.bind_some, chase_succ, tip_pnext hc.tree hn htip]
      rfl

lemma node_forward_linked_iff (hg : H.get_hash Block.genesis = g_genesis_hash) {s : Node}
    {es : List Event} (h : node_run H es = .ok s) :
    s.ForwardLinked ↔ s.toChain.NeverReorganised H := by
  obtain ⟨hs, bs, had⟩ := node_run_sound h
  obtain ⟨hn, hl⟩ := linked_iff hg had.grows
  rw [forward_linked_iff hs.chain hn, hl]

/-- The forward links follow the best chain all along a run exactly when no insertion of
the run is a reorganisation; the insertions are those of the history, which rebuilds the chain. -/
theorem forward_links_iff (H : BlockHash) (hg : H.get_hash Block.genesis = g_genesis_hash)
    (es : List Event) (s : Node) (h : node_run H es = .ok s) :
    replay H s.history = .ok s.toChain ∧
    ((∀ pre post t, es = pre ++ post → node_run H pre = .ok t → t.ForwardLinked) ↔
      ∀ pre b post d, s.history = pre ++ b :: post → replay H pre = .ok d →
        ¬ d.Reorganises b) := by
  obtain ⟨-, bs, hrun⟩ := node_run_sound h
  refine ⟨(history_replay hrun.grows).2, ?_⟩
  constructor
  · intro hall
    exact (node_forward_linked_iff hg h).mp (hall es [] s (by simp) h)
  · rintro hnever pre post t rfl ht
    rw [node_forward_linked_iff hg ht]
    intro pre' b post' d hb hd
    obtain ⟨-, bs, had⟩ := run_advances (node_run_sound ht).1 (node_run_from h ht)
    exact hnever pre' b (post' ++ bs) d (by rw [had.grows.history, hb]; simp) hd

def sampleFirst : Block := ⟨1, g_genesis_hash, 5, 1, "peer1"⟩
def sampleSecond : Block := ⟨1, g_genesis_hash, 5, 2, "peer2"⟩
def sampleSecondChild : Block := ⟨2, plainHash.get_hash sampleSecond, 5, 3, "peer2"⟩

theorem forward_links_sample :
    ∃ s, node_run plainHash [.receive sampleFirst, .mine 2 "peer0"] = .ok s ∧
      replay plainHash s.history = .ok s.toChain ∧
      ((∀ pre post t, [.receive sampleFirst, .mine 2 "peer0"] = pre ++ post →
        node_run plainHash pre = .ok t → t.ForwardLinked) ↔
      ∀ pre b post d, s.history = pre ++ b :: post → replay plainHash pre = .ok d →
        ¬ d.Reorganises b) := by
  obtain ⟨s, hs, -⟩ := holdsAfter_iff.mp (show holdsAfter
    (node_run plainHash [.receive sampleFirst, .mine 2 "peer0"]) (fun _ => true) = true by decide)
  exact ⟨s, hs, forward_links_iff plainHash rfl _ s hs⟩

theorem forward_links_broken :
    ¬ ∀ H : BlockHash, CollisionFree H → H.get_hash Block.genesis = g_genesis_hash →
      ∀ es s, node_run H es = .ok s → s.ForwardLinked := by
  intro hall
  obtain ⟨s, hs, ho⟩ := holdsAfter_iff.mp (show holdsAfter
    (node_run plainHash [.receive sampleFirst, .receive sampleSecond, .receive sampleSecondChild])
      (fun s => s.g_best_index = some 3 ∧ s.pprev 3 = some 2 ∧ s.pnext 2 = none) = true by decide)
  obtain ⟨hbest, hprev, hnext⟩ := of_decide_eq_true ho
  have hlinked := hall plainHash plainHash_collisionFree rfl _ s hs
  obtain ⟨p, hp, hpa⟩ := hlinked.link ⟨3, 0, hbest, rfl⟩ (by decide)
  obtain rfl : 2 = p := Option.some.inj (hprev.symm.trans hp)
  rw [hnext] at hpa
  simp at hpa

end Xcoin
