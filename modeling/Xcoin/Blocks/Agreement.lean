import Xcoin.Blocks.History

/-! Two chains that hold the same block hold it in the same place. -/

namespace Xcoin

open Lib.Runs Lib.StdMaps

variable {H : BlockHash} {c c' : Chain}

def Chain.parent_hash (c : Chain) (e : BlockIndex) : Option String :=
  (e.pprev_.bind fun p => c.heap[p]?).map BlockIndex.hash_

def Chain.SameParents (c c' : Chain) : Prop :=
  ∀ {a a' : Addr} {e e' : BlockIndex}, c.heap[a]? = some e → c'.heap[a']? = some e' →
    e.hash_ = e'.hash_ → e.block.prev_hash_ = e'.block.prev_hash_

namespace Chain.Tree

lemma parent_hash_eq (ht : c.Tree H) {a : Addr} {e : BlockIndex} (h : c.heap[a]? = some e) :
    c.parent_hash e = if a = 0 then none else some e.block.prev_hash_ := by
  by_cases ha : a = 0
  · subst ha
    rw [if_pos rfl, Chain.parent_hash, (ht.root_entry h).2.1]
    rfl
  · obtain ⟨p, parent, -, hpp, hp, hph, -⟩ := ht.parent h ha
    rw [if_neg ha, Chain.parent_hash, hpp, Option.bind_some, hp, Option.map_some, hph]

theorem same_place (ht : c.Tree H) (ht' : c'.Tree H) (hsame : c.SameParents c') {a a' : Addr}
    {e e' : BlockIndex} (h : c.heap[a]? = some e) (h' : c'.heap[a']? = some e')
    (hk : e.hash_ = e'.hash_) :
    e.n_height_ = e'.n_height_ ∧ c.parent_hash e = c'.parent_hash e' := by
  have hroot : a = 0 ↔ a' = 0 := by
    rw [← ht.root_iff h, ← ht'.root_iff h', hk]
  refine ⟨?_, ?_⟩
  · induction a using Nat.strong_induction_on generalizing a' e e' with
    | h a ih =>
      by_cases ha : a = 0
      · have ha' := hroot.mp ha
        subst ha ha'
        rw [(ht.root_entry h).2.2, (ht'.root_entry h').2.2]
      · have ha' : a' ≠ 0 := fun h0 => ha (hroot.mpr h0)
        obtain ⟨p, parent, hlt, -, hp, hph, hh⟩ := ht.parent h ha
        obtain ⟨p', parent', -, -, hp', hph', hh'⟩ := ht'.parent h' ha'
        have hkp : parent.hash_ = parent'.hash_ := by
          rw [hph, hph', hsame h h' hk]
        have hrootp : p = 0 ↔ p' = 0 := by
          rw [← ht.root_iff hp, ← ht'.root_iff hp', hkp]
        rw [hh, hh', ih p hlt hp hp' hkp hrootp]
  · rw [ht.parent_hash_eq h, ht'.parent_hash_eq h', hsame h h' hk]
    simp only [hroot]

/-- The parent of a block is in the index with it. -/
lemma parent_indexed (hH : CollisionFree H) (ht : c.Tree H) {b : Block}
    (hmem : H.get_hash b ∈ c.g_block_index) (hne : b.prev_hash_ ≠ "") :
    ∃ a p parent, c.pprev a = some p ∧ c.heap[p]? = some parent ∧
      parent.hash_ = b.prev_hash_ := by
  obtain ⟨a, e, he, hk⟩ := ht.mem_index.mp hmem
  have hhead : e.block.header = b.header := by
    apply (hH _ _).mp
    rw [← ht.hash he, hk]
  have hprev : e.block.prev_hash_ = b.prev_hash_ := congrArg Header.prev_hash_ hhead
  by_cases ha : a = 0
  · subst ha
    rw [(ht.root_entry he).1] at hprev
    exact (hne hprev.symm).elim
  · obtain ⟨p, parent, -, hpp, hp, hph, -⟩ := ht.parent he ha
    exact ⟨a, p, parent, by rw [pprev_entry he, hpp], hp, hph.trans hprev⟩

end Chain.Tree

end Xcoin
