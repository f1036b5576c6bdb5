import Xcoin.Receive.PingText

/-! Ping frames in the pieces that TCP cuts their bytes into. -/

namespace Xcoin

open Lib.Runs Lib.Archives Lib.Bytes

/-- The pieces go to the frames in turn: the first piece for a frame completes its header, the
last one for it completes the frame, and one piece is taken even if the frame is held whole.
`held` bytes of the frames have arrived before. -/
def Paced : List (List UInt8) → ℕ → List (List UInt8) → Prop
  | [], _, pieces => pieces = []
  | frame :: frames, held, pieces => ∃ first more rest, pieces = first :: more ++ rest ∧
      MSG_HEADER_SIZE ≤ held + first.length ∧
      frame.length ≤ held + (first :: more).flatten.length ∧
      (more = [] ∨ held + (first :: more).dropLast.flatten.length < frame.length) ∧
      Paced frames (held + (first :: more).flatten.length - frame.length) rest

variable {A : Archive PingMsg} {s : Connection} {m : PingMsg} {msgs : List PingMsg}
variable {buf rest held left first body unread : List UInt8} {more pieces : List (List UInt8)}
variable {log : List (List UInt8 × PingMsg)}

lemma Fits.part (hfit : Fits body) (hbody : buf ++ rest ++ left = body) :
    0 ∉ rest ∧ rest.length < 8192 := by
  have hclean := hfit.clean
  have hshort := hfit.short
  rw [← hbody] at hclean hshort
  rw [List.length_append, List.length_append] at hshort
  exact ⟨fun hz => hclean (List.mem_append_left left (List.mem_append_right buf hz)), by omega⟩

lemma receive_piece (hs : s.At [] buf (first.length + rest.length) log) (hrest : rest ≠ [])
    (hclean : 0 ∉ first) (hshort : first.length < 8192) :
    ∃ u, receive A s first = .ok u ∧ u.At [] (buf ++ first) rest.length log := by
  have hpos : 0 < rest.length := List.length_pos_iff.mpr hrest
  have hat := arrived_at hs first
  rw [List.nil_append] at hat
  obtain ⟨u, hu, huat⟩ := read_body_part (A := A) hat hrest hclean hshort
  rw [← callback_body hat (by omega)] at hu
  exact ⟨u, hu, huat⟩

theorem receive_part (hs : s.At [] buf (pieces.flatten.length + rest.length) log)
    (hrest : rest ≠ []) (hclean : 0 ∉ pieces.flatten) (hshort : ∀ p ∈ pieces, p.length < 8192) :
    ∃ u, run (receive A) s pieces = .ok u ∧
      u.At [] (buf ++ pieces.flatten) rest.length log := by
  induction pieces generalizing s buf with
  | nil =>
    refine ⟨s, rfl, ?_⟩
    simpa using hs
  | cons p pieces ih =>
    rw [List.flatten_cons, List.length_append, Nat.add_assoc, ← List.length_append] at hs
    rw [List.flatten_cons, List.mem_append, not_or] at hclean
    obtain ⟨v, hv, hvat⟩ := receive_piece (A := A) hs (List.append_ne_nil_of_right_ne_nil _ hrest)
      hclean.1 (hshort p List.mem_cons_self)
    rw [List.length_append] at hvat
    obtain ⟨u, hu, huat⟩ := ih hvat hclean.2 fun q hq => hshort q (List.mem_cons_of_mem p hq)
    refine ⟨u, (run_cons_ok _).mpr ⟨v, hv, hu⟩, ?_⟩
    rw [List.flatten_cons, ← List.append_assoc]
    exact huat

theorem receive_last (hs : s.At [] buf rest.length log)
    (hload : A.load (buf ++ rest) = some (m, unread)) (hrest : rest ≠ []) (hclean : 0 ∉ rest)
    (hshort : rest.length < 8192) (left : List UInt8) :
    ∃ u, receive A s (rest ++ left) = .ok u ∧ u.At left unread 0 (log ++ [(buf ++ rest, m)]) := by
  have hpos : 0 < rest.length := List.length_pos_iff.mpr hrest
  have hat := arrived_at hs (rest ++ left)
  rw [List.nil_append] at hat
  obtain ⟨u, hu, huat⟩ := read_body_last hat hload hrest hclean hshort
  rw [← callback_body hat hpos.ne'] at hu
  exact ⟨u, hu, huat⟩

theorem receive_rest (hs : s.At [] buf rest.length log)
    (hload : A.load (buf ++ rest) = some (m, unread)) (hclean : 0 ∉ rest)
    (hwhole : more.flatten = rest ++ left)
    (hlast : more.dropLast.flatten.length < rest.length)
    (hshort : ∀ p ∈ more, min rest.length p.length < 8192) :
    ∃ u, run (receive A) s more = .ok u ∧ u.At left unread 0 (log ++ [(buf ++ rest, m)]) := by
  cases more using List.reverseRecOn with
  | nil =>
    have hnil := congrArg List.length hwhole
    simp at hnil hlast
    omega
  | append_singleton parts p =>
    rw [List.dropLast_concat] at hlast
    rw [List.flatten_append, List.flatten_singleton] at hwhole
    obtain ⟨rest', rfl⟩ : parts.flatten <+: rest := List.prefix_of_prefix_length_le
      ⟨_, hwhole⟩ (List.prefix_append rest left) hlast.le
    rw [List.append_assoc] at hwhole
    obtain rfl := List.append_cancel_left hwhole
    rw [List.length_append] at hs hlast
    rw [List.mem_append, not_or] at hclean
    have hrest' : rest' ≠ [] := by
      rintro rfl
      simp at hlast
    have hsmall : ∀ q ∈ parts, q.length < 8192 := by
      intro q hq
      have hle := (List.sublist_flatten_of_mem hq).length_le
      have hmin := hshort q (List.mem_append_left _ hq)
      rw [List.length_append] at hmin
      omega
    have hmin := hshort _ (List.mem_append_right parts List.mem_cons_self)
    rw [List.length_append, List.length_append] at hmin
    obtain ⟨v, hv, hvat⟩ := receive_part (A := A) hs hrest' hclean.1 hsmall
    rw [← List.append_assoc] at hload ⊢
    obtain ⟨u, hu, huat⟩ := receive_last hvat hload hrest' hclean.2 (by omega) left
    exact ⟨u, (run_snoc_ok _).mpr ⟨v, hv, hu⟩, huat⟩

lemma receive_header {header : MsgHeader} {input : List UInt8} (hs : s.At held buf 0 log)
    (hcut : held ++ first = header.bytes ++ input) (htype : header.type = MSG_TYPE_PING) :
    ∃ u : Connection, u.At input buf (to_size_t header.size) log ∧
      receive A s first = u.read_body A (input.length + 1) := by
  have hat := arrived_at hs first
  rw [hcut] at hat
  obtain ⟨u, huat, hu⟩ := callback_header (A := A) hat
  rw [if_neg (not_not_intro htype)] at hu
  exact ⟨u, huat, hu⟩

lemma frame_header (hs : s.At held buf 0 log) (hint : body.length < 2 ^ 31)
    (hhead : MSG_HEADER_SIZE ≤ held.length + first.length)
    (hwhole : held ++ (first :: more).flatten = wire MSG_TYPE_PING body ++ left) :
    ∃ (input : List UInt8) (u : Connection), u.At input buf body.length log ∧
      receive A s first = u.read_body A (input.length + 1) ∧
      input ++ more.flatten = body ++ left ∧
      MSG_HEADER_SIZE + input.length = held.length + first.length := by
  let header := MsgHeader.mk MSG_TYPE_PING (Int32.ofNat body.length)
  have hlen : header.bytes.length = MSG_HEADER_SIZE := (header_round_trip header).1
  have hsize : to_size_t header.size = body.length := size_round_trip hint
  have hbytes : wire MSG_TYPE_PING body = header.bytes ++ body := rfl
  rw [List.flatten_cons, hbytes, List.append_assoc header.bytes, ← List.append_assoc] at hwhole
  obtain ⟨input, hinput⟩ : header.bytes <+: held ++ first := List.prefix_of_prefix_length_le
    (List.prefix_append _ _) ⟨_, hwhole⟩ (by rw [List.length_append, hlen]; exact hhead)
  obtain ⟨u, hat, hu⟩ := receive_header (A := A) hs hinput.symm rfl
  rw [hsize] at hat
  rw [← hinput, List.append_assoc] at hwhole
  have hcut := congrArg List.length hinput
  rw [List.length_append, List.length_append, hlen] at hcut
  exact ⟨input, u, hat, hu, List.append_cancel_left hwhole, hcut⟩

/-- The pieces that a frame takes end with its body decoded and nothing else of it left. -/
theorem receive_frame (hs : s.At held buf 0 log) (hfit : Fits body)
    (hload : A.load (buf ++ body) = some (m, unread))
    (hhead : MSG_HEADER_SIZE ≤ held.length + first.length)
    (hwhole : held ++ (first :: more).flatten = wire MSG_TYPE_PING body ++ left)
    (hlast : more = [] ∨ held.length + (first :: more).dropLast.flatten.length <
      (wire MSG_TYPE_PING body).length) :
    ∃ u, run (receive A) s (first :: more) = .ok u ∧
      u.At left unread 0 (log ++ [(buf ++ body, m)]) := by
  obtain ⟨input, v, hvat, hv, hbody, hcut⟩ := frame_header (A := A) hs
    (hfit.short.trans (by decide)) hhead hwhole
  have hback : more ≠ [] → input.length + more.dropLast.flatten.length < body.length := by
    intro hnil
    have hlast := hlast.resolve_left hnil
    rw [List.dropLast_cons_of_ne_nil hnil, List.flatten_cons, List.length_append,
      wire_length] at hlast
    omega
  by_cases hlt : input.length < body.length
  · obtain ⟨rest, rfl⟩ : input <+: body := List.prefix_of_prefix_length_le
      ⟨_, hbody⟩ (List.prefix_append _ left) hlt.le
    have hfront := hfit.part (show [] ++ input ++ rest = input ++ rest from rfl)
    have hrest := hfit.part (List.append_nil (input ++ rest))
    rw [List.append_assoc] at hbody
    have hmore := List.append_cancel_left hbody
    rw [List.length_append] at hvat hlt hback
    have hne : rest ≠ [] := by
      rintro rfl
      simp at hlt
    have hnil : more ≠ [] := by
      rintro rfl
      exact hne (List.append_eq_nil_iff.mp hmore.symm).1
    have hlast := hback hnil
    obtain ⟨w, hw, hwat⟩ := read_body_part (A := A) hvat hne hfront.1 hfront.2
    rw [← hv] at hw
    rw [← List.append_assoc] at hload ⊢
    obtain ⟨u, hu, huat⟩ := receive_rest hwat hload hrest.1 hmore (by omega)
      fun p _ => lt_of_le_of_lt (min_le_left _ _) hrest.2
    exact ⟨u, (run_cons_ok _).mpr ⟨w, hw, hu⟩, huat⟩
  · obtain rfl : more = [] := by
      by_contra hnil
      have hlast := hback hnil
      omega
    rw [List.flatten_nil, List.append_nil] at hbody
    rw [hbody] at hvat hv
    obtain ⟨u, hu, huat⟩ := read_body_last hvat hload hfit.ne_nil hfit.clean hfit.short
    exact ⟨u, (run_singleton _ _ _).trans (hv.trans hu), huat⟩

lemma whole_header (hs : s.At [] buf 0 log) (hfit : Fits body) :
    ∃ u : Connection, u.At (body ++ []) buf body.length log ∧
      receive A s (wire MSG_TYPE_PING body) = u.read_body A ((body ++ []).length + 1) := by
  have hsize : to_size_t (Int32.ofNat body.length) = body.length :=
    size_round_trip (hfit.short.trans (by decide))
  obtain ⟨u, hat, hu⟩ := receive_header (A := A) hs
    (List.nil_append (wire MSG_TYPE_PING body)) rfl
  rw [hsize] at hat
  rw [List.append_nil]
  exact ⟨u, hat, hu⟩

lemma receive_whole (hs : s.At [] buf 0 log) (hfit : Fits body)
    (hload : A.load (buf ++ body) = some (m, unread)) :
    ∃ u, receive A s (wire MSG_TYPE_PING body) = .ok u ∧
      u.At [] unread 0 (log ++ [(buf ++ body, m)]) := by
  obtain ⟨v, hvat, hv⟩ := whole_header (A := A) hs hfit
  rw [hv]
  exact read_body_last hvat hload hfit.ne_nil hfit.clean hfit.short

lemma receive_short (hs : s.At held buf 0 log)
    (h : held.length + first.length < MSG_HEADER_SIZE) :
    receive A s first = .error .uninitialised_header := by
  apply callback_short (arrived_at hs first)
  rw [List.length_append]
  exact h

lemma frame_pieces {n : ℕ} (h : n ≤ held.length + (first :: pieces).flatten.length) :
    ∃ more rest, pieces = more ++ rest ∧ n ≤ held.length + (first :: more).flatten.length ∧
      (more = [] ∨ held.length + (first :: more).dropLast.flatten.length < n) := by
  by_cases hheld : n ≤ held.length
  · exact ⟨[], pieces, rfl, by omega, Or.inl rfl⟩
  · obtain ⟨group, rest, hcut, hle, hlt⟩ := reach_split (t := n - held.length)
      (by omega) (show n - held.length ≤ (first :: pieces).flatten.length by omega)
    cases group with
    | nil =>
      simp at hle
      omega
    | cons p more =>
      obtain ⟨rfl, rfl⟩ := List.cons.inj hcut
      exact ⟨more, rest, rfl, by omega, Or.inr (by omega)⟩

lemma frame_group (hs : s.At held [] 0 log) (hfit : Fits (A.save m))
    (hstream : held ++ (first :: more ++ pieces).flatten = ping_frame A m ++ rest)
    (hhead : MSG_HEADER_SIZE ≤ held.length + first.length)
    (hreach : (ping_frame A m).length ≤ held.length + (first :: more).flatten.length)
    (hlast : more = [] ∨ held.length + (first :: more).dropLast.flatten.length <
      (ping_frame A m).length) :
    ∃ u left, run (receive A) s (first :: more) = .ok u ∧
      u.At left [] 0 (log ++ [(A.save m, m)]) ∧ left ++ pieces.flatten = rest ∧
      held.length + (first :: more).flatten.length - (ping_frame A m).length = left.length := by
  rw [List.flatten_append, ← List.append_assoc] at hstream
  obtain ⟨left, hleft⟩ : ping_frame A m <+: held ++ (first :: more).flatten :=
    List.prefix_of_prefix_length_le (List.prefix_append _ _) ⟨_, hstream⟩
      (by rw [List.length_append]; exact hreach)
  rw [← hleft, List.append_assoc] at hstream
  obtain ⟨u, hu, hat⟩ := receive_frame hs hfit (A.load_whole m) hhead hleft.symm hlast
  refine ⟨u, left, hu, hat, List.append_cancel_left hstream, ?_⟩
  rw [← List.length_append, ← hleft, List.length_append, Nat.add_sub_cancel_left]

theorem paced_framed (hfit : ∀ m ∈ msgs, Fits (A.save m)) (hs : s.At held [] 0 log)
    (hstream : held ++ pieces.flatten = (msgs.map (ping_frame A)).flatten)
    (hpaced : Paced (msgs.map (ping_frame A)) held.length pieces) :
    ∃ u, run (receive A) s pieces = .ok u ∧
      u.dispatched.map Prod.fst = log.map Prod.fst ++ msgs.map A.save := by
  induction msgs generalizing s held pieces log with
  | nil =>
    obtain rfl : pieces = [] := hpaced
    exact ⟨s, rfl, by simp [hs.log]⟩
  | cons m msgs ih =>
    obtain ⟨first, more, rest, rfl, hhead, hreach, hlast, hpaced⟩ := hpaced
    obtain ⟨v, left, hv, hat, hrest, hleft⟩ := frame_group hs (hfit m List.mem_cons_self) hstream
      hhead hreach hlast
    rw [hleft] at hpaced
    obtain ⟨u, hu, htexts⟩ := ih (fun m' hm' => hfit m' (List.mem_cons_of_mem m hm')) hat hrest
      hpaced
    refine ⟨u, (run_append_ok _).mpr ⟨v, hv, hu⟩, ?_⟩
    rw [htexts, List.map_append, List.append_assoc]
    rfl

theorem framed_paced {u : Connection} (hfit : ∀ m ∈ msgs, Fits (A.save m)) (hne : [] ∉ pieces)
    (hs : s.At held [] 0 log)
    (hstream : held ++ pieces.flatten = (msgs.map (ping_frame A)).flatten)
    (hu : run (receive A) s pieces = .ok u)
    (htexts : u.dispatched.map Prod.fst = log.map Prod.fst ++ msgs.map A.save) :
    Paced (msgs.map (ping_frame A)) held.length pieces := by
  induction msgs generalizing s held pieces log with
  | nil =>
    cases pieces with
    | nil => rfl
    | cons p pieces =>
      simp at hstream
      simp [hstream] at hne
  | cons m msgs ih =>
    cases pieces with
    | nil =>
      rw [run_nil, Except.ok.injEq] at hu
      rw [← hu, hs.log] at htexts
      simp at htexts
    | cons first pieces =>
      have hhead : MSG_HEADER_SIZE ≤ held.length + first.length := by
        by_contra hshort
        rw [run_cons, receive_short hs (not_le.mp hshort)] at hu
        exact nomatch hu
      have hlen := congrArg List.length hstream
      rw [List.map_cons, List.flatten_cons (l := ping_frame A m), List.length_append,
        List.length_append] at hlen
      obtain ⟨more, rest, rfl, hreach, hlast⟩ := frame_pieces
        (show (ping_frame A m).length ≤ held.length + (first :: pieces).flatten.length by omega)
      obtain ⟨v, left, hv, hat, hrest, hleft⟩ := frame_group hs (hfit m List.mem_cons_self)
        hstream hhead hreach hlast
      rw [← List.cons_append, run_append, hv] at hu
      refine ⟨first, more, rest, rfl, hhead, hreach, hlast, ?_⟩
      rw [hleft]
      apply ih (fun m' hm' => hfit m' (List.mem_cons_of_mem m hm')) _ hat hrest hu
      · rw [htexts, List.map_append, List.append_assoc]
        rfl
      · exact fun hmem => hne (List.mem_cons_of_mem first (List.mem_append_right more hmem))

theorem framed_iff (hfit : ∀ m ∈ msgs, Fits (A.save m)) (hne : [] ∉ pieces)
    (hs : s.At held [] 0 log)
    (hstream : held ++ pieces.flatten = (msgs.map (ping_frame A)).flatten) :
    (∃ u, run (receive A) s pieces = .ok u ∧
      u.dispatched.map Prod.fst = log.map Prod.fst ++ msgs.map A.save) ↔
    Paced (msgs.map (ping_frame A)) held.length pieces := by
  constructor
  · rintro ⟨u, hu, htexts⟩
    exact framed_paced hfit hne hs hstream hu htexts
  · exact paced_framed hfit hs hstream

/-- The bodies are decoded each once and in order just when the pieces are paced. -/
theorem framing_iff (A : Archive PingMsg) (received : Bool) (msgs : List PingMsg)
    (pieces : List (List UInt8)) (hfit : ∀ m ∈ msgs, Fits (A.save m)) (hne : [] ∉ pieces)
    (hstream : pieces.flatten = (msgs.map (ping_frame A)).flatten) :
    (∃ s, run (receive A) (.fresh received) pieces = .ok s ∧
      s.dispatched.map Prod.fst = msgs.map A.save) ↔
    Paced (msgs.map (ping_frame A)) 0 pieces := by
  have h := framed_iff hfit hne (fresh_at received) hstream
  simpa using h

def sampleFrame (hop : ℤ) : List UInt8 := wire MSG_TYPE_PING (samplePing hop).text

def sampleCut : List (List UInt8) :=
  [(sampleFrame 1).take 20, (sampleFrame 1).drop 20 ++ (sampleFrame 2).take 3,
    (sampleFrame 2).drop 3]

theorem framing_iff_sample : ∃ s, run (receive textArchive) (.fresh false) sampleCut = .ok s ∧
    s.dispatched.map Prod.fst = [samplePing 1, samplePing 2].map textArchive.save := by
  apply (framing_iff textArchive false [samplePing 1, samplePing 2] sampleCut sample_fits
    (by decide) (by decide)).mpr
  exact ⟨_, [_], _, rfl, by decide, by decide, Or.inr (by decide),
    _, [], [], rfl, by decide, by decide, Or.inl rfl, rfl⟩

theorem framing_merged : ¬ ∃ s, run (receive textArchive) (.fresh false)
      [sampleFrame 1 ++ sampleFrame 2] = .ok s ∧
    s.dispatched.map Prod.fst = [samplePing 1, samplePing 2].map textArchive.save := by
  intro h
  have hpaced := (framed_iff sample_fits (by decide) (fresh_at false) (by decide)).mp h
  obtain ⟨first, more, rest, hpieces, -, -, -, hpaced⟩ := hpaced
  obtain ⟨-, hnil⟩ := List.cons.inj hpieces
  obtain ⟨rfl, rfl⟩ := List.append_eq_nil_iff.mp hnil.symm
  obtain ⟨_, _, _, hnone, -⟩ := hpaced
  exact nomatch hnone

end Xcoin
