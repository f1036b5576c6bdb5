import Xcoin.Node.Index
import Xcoin.Blocks.Agreement

/-! Several nodes that mine on their own tips and deliver each other's blocks late, out of
order and repeatedly. A node that has failed is gone. -/

namespace Xcoin

open Lib.Runs Lib.StdMaps

structure Network (ι : Type) where
  nodes : ι → Option Node
  mined : List Block

variable (H : BlockHash) {ι : Type} [DecidableEq ι]

def Network.start : Network ι where
  nodes _ := (boot H).toOption
  mined := []

def mined_block (r : Except Fault (Block × Node)) : List Block :=
  match r with
  | .ok (data, _) => [data]
  | .error _ => []

inductive Network.Step (N : Network ι) : Network ι → Prop
  | mine {i : ι} {s : Node} (nonce : Int32) (name : String) : N.nodes i = some s →
      Step N {
        nodes := Function.update N.nodes i (step H s (.mine nonce name)).toOption
        mined := mined_block (on_mine H nonce name s) ++ N.mined }
  | deliver {i : ι} {s : Node} (b : Block) : N.nodes i = some s → b ∈ N.mined →
      Step N { N with nodes := Function.update N.nodes i (step H s (.receive b)).toOption }

def Network.HeightsBounded (N : Network ι) : Prop :=
  ∀ i, ∀ s ∈ N.nodes i, ∀ e ∈ s.heap, e.n_height_ < 2 ^ 31

/-- The block was built on genesis or on another mined block, one above it. -/
def Numbered (bs : List Block) (d : Block) : Prop :=
  (d.prev_hash_ = H.get_hash Block.genesis ∧ d.index_.toNat = 1) ∨
    ∃ x ∈ bs, d.prev_hash_ = H.get_hash x ∧ d.index_.toNat = x.index_.toNat + 1

structure Network.Sound (N : Network ι) : Prop where
  node : ∀ {i : ι} {s : Node}, N.nodes i = some s → s.Sound H
  made : ∀ {i : ι} {s : Node}, N.nodes i = some s → s.MadeOf (· ∈ N.mined)
  numbered : ∀ {d : Block}, d ∈ N.mined → Numbered H N.mined d

variable {H} {N : Network ι} {s : Node} {bs : List Block} {b : Block}

lemma Numbered.mono {bs' : List Block} (h : Numbered H bs b) (hbs : ∀ x ∈ bs, x ∈ bs') :
    Numbered H bs' b := by
  cases h with
  | inl h => exact Or.inl h
  | inr h =>
    obtain ⟨x, hx, h⟩ := h
    exact Or.inr ⟨x, hbs x hx, h⟩

lemma Numbered.prev_ne (h : Numbered H bs b) : b.prev_hash_ ≠ "" := by
  cases h with
  | inl h => exact h.1 ▸ H.get_hash_ne _
  | inr h =>
    obtain ⟨x, -, hx, -⟩ := h
    exact hx ▸ H.get_hash_ne x

theorem height_is_index (hH : CollisionFree H) (ht : s.Tree H) (hm : s.MadeOf (· ∈ bs))
    (hn : ∀ d ∈ bs, Numbered H bs d) {a : Addr} {e : BlockIndex} (he : s.heap[a]? = some e)
    (ha : a ≠ 0) : e.n_height_ = e.block.index_.toNat := by
  induction a using Nat.strong_induction_on generalizing e with
  | h a ih =>
    have hmem : e.block ∈ bs := (hm.entry he).resolve_left (ht.not_genesis he ha)
    obtain ⟨p, parent, hlt, -, hp, hph, hh⟩ := ht.parent he ha
    cases hn _ hmem with
    | inl h =>
      have hp0 : p = 0 := (ht.root_iff hp).mp (hph.trans h.1)
      subst hp0
      rw [hh, (ht.root_entry hp).2.2, h.2]
      rfl
    | inr h =>
      obtain ⟨x, hx, hprev, hidx⟩ := h
      have hkey : parent.hash_ = H.get_hash x := hph.trans hprev
      have hp0 : p ≠ 0 := by
        intro hp0
        have hgen := (ht.root_iff hp).mpr hp0
        have hhead := (hH _ _).mp (hkey.symm.trans hgen)
        exact (hn x hx).prev_ne (congrArg Header.prev_hash_ hhead)
      have hhead := (hH _ _).mp ((ht.hash hp).symm.trans hkey)
      have hindex : parent.block.index_ = x.index_ := congrArg Header.index_ hhead
      rw [hh, ih p hlt hp hp0, hidx, hindex]
      push_cast
      rfl

lemma ofInt_succ {n : ℕ} (hn : n < 2 ^ 31) : (UInt32.ofInt ((n : ℤ) + 1)).toNat = n + 1 := by
  have hmod : (((n : ℤ) + 1) % 2 ^ 32).toNat = n + 1 := by omega
  rw [UInt32.ofInt, hmod, UInt32.toNat_ofNat_of_lt']
  change n + 1 < 2 ^ 32
  omega

lemma mined_numbered (hH : CollisionFree H) (hs : s.Sound H) (hm : s.MadeOf (· ∈ bs))
    (hn : ∀ d ∈ bs, Numbered H bs d) (hbound : ∀ e ∈ s.heap, e.n_height_ < 2 ^ 31)
    {t : Addr} {e : BlockIndex} (ht : s.TipAt t e) (nonce : Int32) (name : String) :
    Numbered H bs (Block.of_index e nonce name) := by
  have htree := hs.chain.tree
  have hlt := hbound e (List.mem_of_getElem? ht.entry)
  by_cases ht0 : t = 0
  · apply Or.inl
    refine ⟨(htree.root_iff ht.entry).mpr ht0, ?_⟩
    subst ht0
    change (UInt32.ofInt (e.n_height_ + 1)).toNat = 1
    rw [(htree.root_entry ht.entry).2.2]
    rfl
  · have hmem : e.block ∈ bs := (hm.entry ht.entry).resolve_left (htree.not_genesis ht.entry ht0)
    have hh := height_is_index hH htree hm hn ht.entry ht0
    refine Or.inr ⟨e.block, hmem, htree.hash ht.entry, ?_⟩
    change (UInt32.ofInt (e.n_height_ + 1)).toNat = _
    rw [hh]
    apply ofInt_succ
    omega

omit [DecidableEq ι] in
lemma start_network_sound : (Network.start H : Network ι).Sound H where
  node {i s} h := by
    rw [Network.start, boot_ok] at h
    obtain rfl : Node.start H = s := Option.some.inj h
    exact start_sound
  made {i s} h := by
    rw [Network.start, boot_ok] at h
    obtain rfl : Node.start H = s := Option.some.inj h
    exact start_made
  numbered h := by simp [Network.start] at h

lemma toOption_ok {α β : Type} {x : Except α β} {b : β} : x.toOption = some b ↔ x = .ok b := by
  cases x <;> simp [Except.toOption]

lemma update_node {nodes : ι → Option Node} {i j : ι} {x : Option Node} {s' : Node}
    (h : Function.update nodes i x j = some s') : (j = i ∧ x = some s') ∨ nodes j = some s' := by
  by_cases hji : j = i
  · subst hji
    rw [Function.update_self] at h
    exact Or.inl ⟨rfl, h⟩
  · rw [Function.update_of_ne hji] at h
    exact Or.inr h

lemma update_sound (hN : N.Sound H) {i : ι} {ev : Event} (new : List Block)
    (hi : N.nodes i = some s) (hnew : ∀ d ∈ new, Numbered H N.mined d)
    (hmade : ∀ s', step H s ev = .ok s' → s'.MadeOf (· ∈ new ++ N.mined)) :
    Network.Sound H {
      nodes := Function.update N.nodes i (step H s ev).toOption
      mined := new ++ N.mined } := by
  constructor
  · intro j s' hj
    cases update_node hj with
    | inl h => exact (step_advances (hN.node hi) (toOption_ok.mp h.2)).1
    | inr h => exact hN.node h
  · intro j s' hj
    cases update_node hj with
    | inl h => exact hmade s' (toOption_ok.mp h.2)
    | inr h => exact (hN.made h).mono fun x hx => List.mem_append_right _ hx
  · intro d hd
    have hgrow : Numbered H N.mined d := by
      cases List.mem_append.mp hd with
      | inl hd => exact hnew d hd
      | inr hd => exact hN.numbered hd
    exact hgrow.mono fun x hx => List.mem_append_right _ hx

theorem network_step_sound (hH : CollisionFree H) {N' : Network ι} (hb : N.HeightsBounded)
    (hN : N.Sound H) (h : Network.Step H N N') : N'.Sound H := by
  cases h with
  | @mine i s nonce name hi =>
    refine update_sound hN _ hi ?_ ?_
    · intro d hd
      cases hm : on_mine H nonce name s with
      | error f => simp [hm, mined_block] at hd
      | ok r =>
        obtain ⟨x, s'⟩ := r
        obtain rfl : d = x := by simpa [hm, mined_block] using hd
        obtain ⟨-, -, t, e, ht, rfl, -⟩ := on_mine_advances (hN.node hi) hm
        exact mined_numbered hH (hN.node hi) (hN.made hi) (fun x hx => hN.numbered hx) (hb i s hi)
          ht nonce name
    · intro s' hs'
      obtain ⟨⟨d, t⟩, hm, rfl⟩ := map_ok.mp hs'
      have hmade := (hN.made hi).mono (Q := (· ∈ mined_block (on_mine H nonce name s) ++ N.mined))
        fun x hx => List.mem_append_right _ hx
      exact mine_made (hN.node hi) hmade (by simp [hm, mined_block]) hm
  | @deliver i s b hi hmem =>
    refine update_sound hN [] hi (by simp) ?_
    intro s' hs'
    obtain ⟨⟨r, t⟩, hp, rfl⟩ := map_ok.mp hs'
    exact receive_made (hN.node hi) (hN.made hi) hmem hp

theorem network_heights_agree (H : BlockHash) (hH : CollisionFree H) (N : Network ι)
    (h : ReachesWhile (Network.Step H) Network.HeightsBounded (Network.start H) N) :
    (∀ i s, N.nodes i = some s → ∀ k a e, s.g_block_index.lookup k = some a →
      s.heap[a]? = some e → k ≠ H.get_hash Block.genesis → e.n_height_ = e.block.index_.toNat) ∧
    ∀ i j s s', N.nodes i = some s → N.nodes j = some s' → ∀ k a a' e e',
      s.g_block_index.lookup k = some a → s.heap[a]? = some e →
      s'.g_block_index.lookup k = some a' → s'.heap[a']? = some e' →
      e.n_height_ = e'.n_height_ ∧ s.parent_hash e = s'.parent_hash e' := by
  have hN : N.Sound H := h.invariant start_network_sound
    fun _ _ hb hs hstep => network_step_sound hH hb hs hstep
  constructor
  · intro i s hi k a e hl he hk
    have htree := (hN.node hi).chain.tree
    apply height_is_index hH htree (hN.made hi) (fun x hx => hN.numbered hx) he
    intro ha
    exact hk ((htree.lookup_hash hl he).symm.trans ((htree.root_iff he).mpr ha))
  · intro i j s s' hi hj k a a' e e' hl he hl' he'
    have htree := (hN.node hi).chain.tree
    have htree' := (hN.node hj).chain.tree
    have hk := htree.lookup_hash hl he
    have hk' := htree'.lookup_hash hl' he'
    refine htree.same_place htree' ?_ he he' (hk.trans hk'.symm)
    intro x x' f f' hf hf' hff
    rw [htree.hash hf, htree'.hash hf'] at hff
    exact congrArg Header.prev_hash_ ((hH _ _).mp hff)

def sampleMined : Block := ⟨1, g_genesis_hash, 5, 7, "peer0"⟩

def samplePair : Network (Fin 2) := Network.start plainHash

def samplePairMined : Network (Fin 2) where
  nodes := Function.update samplePair.nodes 0
    (step plainHash (Node.start plainHash) (.mine 7 "peer0")).toOption
  mined := mined_block (on_mine plainHash 7 "peer0" (Node.start plainHash)) ++ samplePair.mined

def samplePairShared : Network (Fin 2) where
  nodes := Function.update samplePairMined.nodes 1
    (step plainHash (Node.start plainHash) (.receive sampleMined)).toOption
  mined := samplePairMined.mined

theorem network_heights_agree_sample :
    ∃ s s', samplePairShared.nodes 0 = some s ∧ samplePairShared.nodes 1 = some s' ∧
      plainHash.get_hash sampleMined ∈ s.g_block_index ∧
      plainHash.get_hash sampleMined ∈ s'.g_block_index ∧
      ∀ k a a' e e', s.g_block_index.lookup k = some a → s.heap[a]? = some e →
        s'.g_block_index.lookup k = some a' → s'.heap[a']? = some e' →
          e.n_height_ = e'.n_height_ ∧ s.parent_hash e = s'.parent_hash e' := by
  have hstart : ∀ i, samplePair.nodes i = some (Node.start plainHash) := by
    intro i
    rw [samplePair, Network.start, boot_ok]
    rfl
  have hreach : ReachesWhile (Network.Step plainHash) Network.HeightsBounded
      (Network.start plainHash) samplePairShared := by
    have hmine : Network.Step plainHash samplePair samplePairMined := .mine 7 "peer0" (hstart 0)
    have hdeliver : Network.Step plainHash samplePairMined samplePairShared :=
      .deliver sampleMined (hstart 1) (by decide)
    refine .step (.step (.start ?_) hmine ?_) hdeliver ?_
    all_goals
      unfold Network.HeightsBounded
      decide
  obtain ⟨s, hs, hk⟩ := holdsAfter_iff.mp (show holdsAfter
    (step plainHash (Node.start plainHash) (.mine 7 "peer0"))
      (fun s => plainHash.get_hash sampleMined ∈ s.g_block_index) = true by decide)
  obtain ⟨s', hs', hk'⟩ := holdsAfter_iff.mp (show holdsAfter
    (step plainHash (Node.start plainHash) (.receive sampleMined))
      (fun s => plainHash.get_hash sampleMined ∈ s.g_block_index) = true by decide)
  have h0 : samplePairShared.nodes 0 = some s := toOption_ok.mpr hs
  have h1 : samplePairShared.nodes 1 = some s' := toOption_ok.mpr hs'
  have hagree := network_heights_agree plainHash plainHash_collisionFree samplePairShared hreach
  exact ⟨s, s', h0, h1, of_decide_eq_true hk, of_decide_eq_true hk', hagree.2 0 1 s s' h0 h1⟩

end Xcoin
