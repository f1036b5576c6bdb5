import Mathlib.Tactic

/-! Blocks and their identifiers. OpenSSL's `SHA1` is a parameter. A `Header` is what
`get_hash` reads of a block; `miner_` is not part of it. -/

namespace Xcoin

def SHA_DIGEST_LENGTH : ℕ := 20

abbrev Digest := Vector UInt8 SHA_DIGEST_LENGTH

def sha1 (SHA1 : String → Digest) (s : String) : String :=
  String.ofList ((SHA1 s).toList.flatMap fun byte => Nat.toDigits 16 byte.toNat)

structure Block where
  index_ : UInt32
  prev_hash_ : String
  nbit_ : UInt32
  nonce_ : Int32
  miner_ : String
  deriving DecidableEq

def Block.header_text (b : Block) : String :=
  b.prev_hash_ ++ toString b.index_ ++ toString b.nbit_ ++ toString b.nonce_

def Block.get_hash (SHA1 : String → Digest) (b : Block) : String := sha1 SHA1 b.header_text

def Block.genesis : Block where
  index_ := 0
  prev_hash_ := ""
  nbit_ := 5
  nonce_ := 0
  miner_ := ""

def g_genesis_hash : String := "e9d9579737f7e206617cd903ce42d986d5a2f"

def Block.check_block (_ : Block) : Bool := true

structure Header where
  prev_hash_ : String
  index_ : UInt32
  nbit_ : UInt32
  nonce_ : Int32
  deriving DecidableEq

def Block.header (b : Block) : Header := ⟨b.prev_hash_, b.index_, b.nbit_, b.nonce_⟩

/-- A block identifier as the node's maps use it: any function of the block that
never returns the empty string. -/
structure BlockHash where
  get_hash : Block → String
  get_hash_ne : ∀ b, get_hash b ≠ ""

def CollisionFree (H : BlockHash) : Prop :=
  ∀ a b : Block, H.get_hash a = H.get_hash b ↔ a.header = b.header

lemma sha1_ne (SHA1 : String → Digest) (s : String) : sha1 SHA1 s ≠ "" := by
  intro h
  have hnil := congrArg String.toList h
  simp only [sha1, String.toList_ofList, String.toList_empty, List.flatMap_eq_nil_iff] at hnil
  have hlen : (SHA1 s).toList.length = 20 := Vector.length_toList
  obtain ⟨byte, hbyte⟩ := List.exists_mem_of_length_pos (by omega : 0 < (SHA1 s).toList.length)
  exact Nat.toDigits_ne_nil (hnil byte hbyte)

def BlockHash.ofSHA1 (SHA1 : String → Digest) : BlockHash where
  get_hash := Block.get_hash SHA1
  get_hash_ne b := sha1_ne SHA1 b.header_text

def Header.spell (h : Header) : List Char :=
  List.replicate h.index_.toNat '1' ++ '|' :: (List.replicate h.nbit_.toNat '1' ++ '|' ::
    (List.replicate h.nonce_.toUInt32.toNat '1' ++ '|' :: h.prev_hash_.toList))

lemma unary_inj {m n : ℕ} {l l' : List Char}
    (h : List.replicate m '1' ++ '|' :: l = List.replicate n '1' ++ '|' :: l') :
    m = n ∧ l = l' := by
  induction m generalizing n with
  | zero =>
    cases n with
    | zero => simpa using h
    | succ n => simp [List.replicate_succ] at h
  | succ m ih =>
    cases n with
    | zero => simp [List.replicate_succ] at h
    | succ n =>
      have htail := ih (by simpa [List.replicate_succ] using h)
      exact ⟨congrArg Nat.succ htail.1, htail.2⟩

lemma spell_inj {h h' : Header} (he : h.spell = h'.spell) : h = h' := by
  obtain ⟨hi, he⟩ := unary_inj he
  obtain ⟨hb, he⟩ := unary_inj he
  obtain ⟨hn, hp⟩ := unary_inj he
  cases h with
  | mk prev index nbit nonce =>
    cases h' with
    | mk prev' index' nbit' nonce' =>
      obtain rfl : prev = prev' := String.toList_inj.mp hp
      obtain rfl : index = index' := UInt32.toNat_inj.mp hi
      obtain rfl : nbit = nbit' := UInt32.toNat_inj.mp hb
      obtain rfl : nonce = nonce' :=
        Int32.toBitVec.inj (congrArg UInt32.toBitVec (UInt32.toNat_inj.mp hn))
      rfl

def plainHash : BlockHash where
  get_hash b :=
    if b.header = Block.genesis.header then g_genesis_hash else String.ofList b.header.spell
  get_hash_ne b := by
    split
    · decide
    · intro h
      have hnil := congrArg String.toList h
      simp [Header.spell] at hnil

lemma spell_ne_genesis (h : Header) : String.ofList h.spell ≠ g_genesis_hash := by
  intro he
  have hmem : '|' ∈ g_genesis_hash.toList := by
    rw [← he]
    simp [Header.spell]
  exact absurd hmem (by decide)

theorem plainHash_collisionFree : CollisionFree plainHash := by
  intro a b
  simp only [plainHash]
  by_cases ha : a.header = Block.genesis.header <;> by_cases hb : b.header = Block.genesis.header
  · simp [ha, hb]
  · rw [if_pos ha, if_neg hb]
    refine ⟨fun h => (spell_ne_genesis _ h.symm).elim, fun h => (hb (h ▸ ha)).elim⟩
  · rw [if_neg ha, if_pos hb]
    refine ⟨fun h => (spell_ne_genesis _ h).elim, fun h => (ha (h ▸ hb)).elim⟩
  · rw [if_neg ha, if_neg hb]
    exact ⟨fun h => spell_inj (String.ofList_injective h), fun h => by rw [h]⟩

end Xcoin
