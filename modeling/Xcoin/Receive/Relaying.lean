import Xcoin.Receive.Framing

/-! What a connection sends on: the first ping it decodes, unless one was received before. -/

namespace Xcoin

open Lib.Runs Lib.Archives Lib.Bytes

def relayed (received : Bool) (log : List (List UInt8 × PingMsg)) : List (Int64 × ℤ) :=
  if received then [] else (log.take 1).map fun c => (c.2.start_us, c.2.hop + 1)

structure Connection.Since (s₀ s : Connection) (log : List (List UInt8 × PingMsg)) : Prop where
  dispatched : s.dispatched = s₀.dispatched ++ log
  flag : s.G_RECEIVED = (s₀.G_RECEIVED || !log.isEmpty)
  sent : s.sent = s₀.sent ++ relayed s₀.G_RECEIVED log

variable {A : Archive PingMsg} {s₀ s u : Connection} {piece : List UInt8}
variable {log : List (List UInt8 × PingMsg)}

lemma since_refl (s : Connection) : s.Since s [] where
  dispatched := by simp
  flag := by simp
  sent := by simp [relayed]

lemma dispatch_since (h : ∃ log, s₀.Since s log) (hu : s.dispatch A = .ok u) :
    ∃ log, s₀.Since u log := by
  obtain ⟨log, h⟩ := h
  rw [Connection.dispatch] at hu
  cases hload : A.load s.buf_ss_ with
  | none =>
    rw [hload] at hu
    simp at hu
  | some x =>
    rw [hload] at hu
    obtain rfl := Except.ok.inj hu
    refine ⟨log ++ [(s.buf_ss_, x.1)], ?_, by simp, ?_⟩
    · simp only [h.dispatched, List.append_assoc]
    · simp only [h.flag, h.sent]
      cases log <;> cases s₀.G_RECEIVED <;> simp [relayed]

lemma since_put (h : ∃ log, s₀.Since s log) (client : Client) (input : List UInt8)
    (copied : List (List UInt8 × List UInt8)) :
    ∃ log, s₀.Since { s with toClient := client, input := input, copied := copied } log := by
  obtain ⟨log, h⟩ := h
  exact ⟨log, h.dispatched, h.flag, h.sent⟩

lemma receive_since (h : ∃ log, s₀.Since s log) (hu : receive A s piece = .ok u) :
    ∃ log, s₀.Since u log := by
  apply callback_invariant _ _ _ (since_put h _ _ _) hu
  · intro s text h _
    exact since_put h _ _ _
  · intro s u h _
    exact dispatch_since h
  · intro s header h _ _
    exact since_put h _ _ _

end Xcoin
