import Xcoin.Receive.Framing

/-! Frames of other types among the pings, each frame whole in a piece of its own. -/

namespace Xcoin

open Lib.Runs Lib.Archives Lib.Bytes

structure RawFrame where
  type : Int32
  body : List UInt8

def RawFrame.bytes (f : RawFrame) : List UInt8 := wire f.type f.body

def RawFrame.is_ping (f : RawFrame) : Bool := f.type = MSG_TYPE_PING

-- a frame of another type has any body
structure RawFrame.WellFormed (A : Archive PingMsg) (f : RawFrame) : Prop where
  ne_nil : f.body ≠ []
  int32 : f.body.length < 2 ^ 31
  ping : f.is_ping → ∃ m, f.body = A.save m ∧ 0 ∉ f.body

def Connection.Ready (s : Connection) : Prop := s.to_read_ = 0 ∧ s.input = []

/-- After every frame, what has been decoded is what the pings alone give, and the connection
is ready for the next header. -/
def Unharmed (A : Archive PingMsg) (received : Bool) (frames : List RawFrame) : Prop :=
  ∀ earlier, earlier <+: frames → ∀ s,
    run (receive A) (.fresh received)
      ((earlier.filter RawFrame.is_ping).map RawFrame.bytes) = .ok s →
    ∃ u, run (receive A) (.fresh received) (earlier.map RawFrame.bytes) = .ok u ∧
      u.dispatched = s.dispatched ∧ u.Ready

variable {A : Archive PingMsg} {s u : Connection} {f : RawFrame} {frames : List RawFrame}
variable {log : List (List UInt8 × PingMsg)}

lemma receive_ping_full (hs : s.At [] [] 0 log) (hf : f.WellFormed A) (hping : f.is_ping)
    (hfull : 8192 ≤ f.body.length) : receive A s f.bytes = .error .unterminated_array := by
  obtain ⟨m, -, hclean⟩ := hf.ping hping
  have htype : f.type = MSG_TYPE_PING := of_decide_eq_true hping
  obtain ⟨v, hvat, hv⟩ := receive_header (A := A) hs (List.nil_append f.bytes) htype
  rw [show to_size_t _ = f.body.length from size_round_trip hf.int32] at hvat
  rw [hv]
  exact read_body_full hvat hfull hfull (fun hz => hclean (List.mem_of_mem_take hz)) _

lemma receive_ping_short (hs : s.At [] [] 0 log) (hf : f.WellFormed A) (hping : f.is_ping)
    (hshort : f.body.length < 8192) :
    ∃ u m, receive A s f.bytes = .ok u ∧ u.At [] [] 0 (log ++ [(f.body, m)]) := by
  obtain ⟨m, hsave, hclean⟩ := hf.ping hping
  have htype : f.type = MSG_TYPE_PING := of_decide_eq_true hping
  have hload : A.load ([] ++ f.body) = some (m, []) := by
    rw [List.nil_append, hsave, A.load_whole]
  obtain ⟨u, hu, hat⟩ := receive_whole hs ⟨hf.ne_nil, hclean, hshort⟩ hload
  exact ⟨u, m, by rw [RawFrame.bytes, htype, hu], hat⟩

lemma receive_unknown (hs : s.Ready) (hf : f.WellFormed A) (hother : ¬ f.is_ping) :
    ∃ u, receive A s f.bytes = .ok u ∧ ¬ u.Ready := by
  let header := MsgHeader.mk f.type (Int32.ofNat f.body.length)
  obtain ⟨hlen, hparse⟩ := header_round_trip header
  have hbytes : f.bytes = header.bytes ++ f.body := rfl
  have hcut : f.bytes.take MSG_HEADER_SIZE = header.bytes ∧
      f.bytes.drop MSG_HEADER_SIZE = f.body := by
    rw [hbytes, ← hlen, List.take_left, List.drop_left]
    exact ⟨rfl, rfl⟩
  have htype : header.type ≠ MSG_TYPE_PING := fun h => hother (decide_eq_true h)
  refine ⟨{ s with input := f.body, to_read_ := to_size_t header.size }, ?_, ?_⟩
  · rw [receive, Connection.buf_read_cb, if_pos hs.1]
    simp only [hs.2, List.nil_append, hcut.1, hcut.2, hparse, if_pos htype]
  · exact fun h => hf.ne_nil h.2

theorem pings_run (hframes : ∀ f ∈ frames, f.WellFormed A ∧ f.is_ping)
    (hs : s.At [] [] 0 log) (hu : run (receive A) s (frames.map RawFrame.bytes) = .ok u) :
    (∀ f ∈ frames, f.body.length < 8192) ∧ u.Ready := by
  induction frames generalizing s log with
  | nil =>
    obtain rfl := Except.ok.inj hu
    exact ⟨by simp, hs.missing, hs.input⟩
  | cons f frames ih =>
    obtain ⟨hf, hping⟩ := hframes f List.mem_cons_self
    obtain ⟨v, hv, hu⟩ := (run_cons_ok _).mp hu
    have hshort : f.body.length < 8192 := by
      by_contra hfull
      rw [receive_ping_full hs hf hping (not_lt.mp hfull)] at hv
      exact nomatch hv
    obtain ⟨w, m, hw, hat⟩ := receive_ping_short hs hf hping hshort
    rw [hv] at hw
    obtain rfl := Except.ok.inj hw
    obtain ⟨hrest, hready⟩ := ih (fun g hg => hframes g (List.mem_cons_of_mem f hg)) hat hu
    exact ⟨List.forall_mem_cons.mpr ⟨hshort, hrest⟩, hready⟩

theorem short_pings_run (hframes : ∀ f ∈ frames, f.WellFormed A ∧ f.is_ping)
    (hs : s.At [] [] 0 log) (hshort : ∀ f ∈ frames, f.body.length < 8192) :
    ∃ u, run (receive A) s (frames.map RawFrame.bytes) = .ok u := by
  induction frames generalizing s log with
  | nil => exact ⟨s, rfl⟩
  | cons f frames ih =>
    obtain ⟨hf, hping⟩ := hframes f List.mem_cons_self
    obtain ⟨v, m, hv, hat⟩ := receive_ping_short hs hf hping (hshort f List.mem_cons_self)
    obtain ⟨u, hu⟩ := ih (fun g hg => hframes g (List.mem_cons_of_mem f hg)) hat
      fun g hg => hshort g (List.mem_cons_of_mem f hg)
    exact ⟨u, (run_cons_ok _).mpr ⟨v, hv, hu⟩⟩

theorem unharmed_iff (received : Bool) (hframes : ∀ f ∈ frames, f.WellFormed A) :
    Unharmed A received frames ↔ ∀ earlier f, earlier ++ [f] <+: frames → ¬ f.is_ping →
      ∃ g ∈ earlier, g.is_ping ∧ 8192 ≤ g.body.length := by
  have hpings : ∀ {earlier}, earlier <+: frames →
      ∀ f ∈ earlier.filter RawFrame.is_ping, f.WellFormed A ∧ f.is_ping := by
    intro earlier hearlier f hf
    obtain ⟨hmem, hping⟩ := List.mem_filter.mp hf
    exact ⟨hframes f (hearlier.subset hmem), hping⟩
  constructor
  · intro h earlier f hfront hother
    by_contra hnone
    push Not at hnone
    have hearlier := (List.prefix_append earlier [f]).trans hfront
    obtain ⟨s, hs⟩ := short_pings_run (hpings hearlier) (fresh_at received)
      fun g hg => hnone g (List.mem_filter.mp hg).1 (List.mem_filter.mp hg).2
    obtain ⟨v, hv, -, hready⟩ := h earlier hearlier s hs
    obtain ⟨w, hw, hbusy⟩ := receive_unknown hready (hframes f (hfront.subset (by simp))) hother
    obtain ⟨u, hu, -, hready⟩ := h _ hfront s (by simpa [List.filter_append, hother] using hs)
    rw [List.map_append] at hu
    obtain ⟨v', hv', hu⟩ := (run_append_ok _).mp hu
    rw [hv] at hv'
    obtain rfl := Except.ok.inj hv'
    rw [List.map_singleton, run_singleton, hw] at hu
    exact hbusy (Except.ok.inj hu ▸ hready)
  · intro h earlier hearlier s hs
    obtain ⟨hshort, hready⟩ := pings_run (hpings hearlier) (fresh_at received) hs
    have hall : earlier.filter RawFrame.is_ping = earlier := by
      rw [List.filter_eq_self]
      intro f hf
      by_contra hother
      obtain ⟨front, back, rfl⟩ := List.append_of_mem hf
      obtain ⟨g, hg, hping, hfull⟩ := h front f
        ((by simp : front ++ [f] <+: front ++ f :: back).trans hearlier) hother
      have hlt := hshort g (List.mem_filter.mpr ⟨List.mem_append_left _ hg, hping⟩)
      omega
    rw [hall] at hs
    exact ⟨s, hs, rfl, hready⟩

/-- A frame of another type does no harm just when a ping before it has ended the connection.
Among pings that fit into the array, there must be none. -/
theorem unknown_type_iff (A : Archive PingMsg) (received : Bool) (frames : List RawFrame)
    (hframes : ∀ f ∈ frames, f.WellFormed A) :
    (Unharmed A received frames ↔ ∀ earlier f, earlier ++ [f] <+: frames → ¬ f.is_ping →
      ∃ g ∈ earlier, g.is_ping ∧ 8192 ≤ g.body.length) ∧
    ((∀ f ∈ frames, f.is_ping → f.body.length < 8192) →
      (Unharmed A received frames ↔ ∀ f ∈ frames, f.is_ping)) := by
  have hiff := unharmed_iff received hframes
  refine ⟨hiff, ?_⟩
  intro hshort
  rw [hiff]
  constructor
  · intro h f hf
    by_contra hother
    obtain ⟨front, back, rfl⟩ := List.append_of_mem hf
    obtain ⟨g, hg, hping, hfull⟩ := h front f (by simp) hother
    have hlt := hshort g (List.mem_append_left _ hg) hping
    omega
  · intro h earlier f hfront hother
    exact absurd (h f (hfront.subset (by simp))) hother

lemma sample_well_formed {type : Int32} {hop : ℤ}
    (h : samplePing hop ∈ [samplePing 1, samplePing 2]) :
    RawFrame.WellFormed textArchive ⟨type, (samplePing hop).text⟩ where
  ne_nil := (sample_fits _ h).ne_nil
  int32 := (sample_fits _ h).short.trans (by decide)
  ping _ := ⟨samplePing hop, rfl, (sample_fits _ h).clean⟩

theorem unknown_type_iff_sample : Unharmed textArchive false
    [⟨MSG_TYPE_PING, (samplePing 1).text⟩, ⟨MSG_TYPE_PING, (samplePing 2).text⟩] := by
  apply ((unknown_type_iff textArchive false _ _).2 (by decide)).mpr
  · intro f hf
    fin_cases hf <;> rfl
  · intro f hf
    fin_cases hf <;> exact sample_well_formed (by simp)

/-- The body of a frame of type 2 is decoded in place of the ping behind it. -/
theorem unknown_body_decoded :
    ∃ u, run (receive textArchive) (.fresh false)
        (([⟨2, (samplePing 1).text⟩, ⟨MSG_TYPE_PING, (samplePing 2).text⟩] : List RawFrame).map
          RawFrame.bytes) = .ok u ∧
      u.dispatched.map Prod.fst = [(samplePing 1).text] := by
  let header := MsgHeader.mk 2 (Int32.ofNat (samplePing 1).text.length)
  have hfit := sample_fits (samplePing 1) List.mem_cons_self
  have hfirst := arrived_at (fresh_at false) (header.bytes ++ (samplePing 1).text)
  obtain ⟨v, hvat, hv⟩ := callback_header (A := textArchive) hfirst
  have hsize : to_size_t header.size = (samplePing 1).text.length := by decide
  rw [hsize] at hvat
  have hsecond := arrived_at hvat (sampleFrame 2)
  obtain ⟨u, hu, hat⟩ := read_body_last hsecond (textArchive.load_whole (samplePing 1))
    hfit.ne_nil hfit.clean hfit.short
  rw [← callback_body hsecond (by decide)] at hu
  refine ⟨u, (run_cons_ok _).mpr ⟨v, hv, (run_singleton _ _ _).trans hu⟩, ?_⟩
  rw [hat.log]
  rfl

end Xcoin
