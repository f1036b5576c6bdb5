import Xcoin.Lib.Positions
import Xcoin.Lib.Runs

/-! The incoming clients: `on_accept`, `buf_err_cb` and the table `in_clients_`. -/

namespace Xcoin

open Lib.Runs Lib.StdMaps Lib.Positions

inductive ClientEvent
  | on_accept (addr_ip : String)
  | buf_err_cb (client : ℕ)
  deriving DecidableEq

inductive ClientFault
  | not_connected
  deriving DecidableEq

structure InClient where
  server_ip_str_ : String
  server_host_name_ : String
  deriving DecidableEq

structure Incoming where
  -- the clients that were accepted, in that order, and those that were freed
  heap : List InClient
  freed : List ℕ
  in_clients_ : StdMap String ℕ

def Incoming.empty : Incoming := ⟨[], [], ∅⟩

def Incoming.add_client_in (s : Incoming) (client : InClient) (c : ℕ) : Incoming :=
  { s with in_clients_ := StdMap.emplace s.in_clients_ client.server_host_name_ c }

-- `new Client()` leaves `server_host_name_` empty
def Incoming.on_accept (s : Incoming) (addr_ip : String) : Incoming :=
  let client : InClient := ⟨addr_ip, ""⟩
  Incoming.add_client_in { s with heap := s.heap ++ [client] } client s.heap.length

def Incoming.step (s : Incoming) : ClientEvent → Except ClientFault Incoming
  | .on_accept addr_ip => .ok (s.on_accept addr_ip)
  | .buf_err_cb c =>
    if c < s.heap.length ∧ c ∉ s.freed then .ok { s with freed := s.freed ++ [c] }
    else .error .not_connected

/-- The table has the latest client of every IP if it is connected, and no client that was
freed. -/
structure Incoming.Tracks (s : Incoming) : Prop where
  latest : ∀ ip c, LastAt (s.heap.map InClient.server_ip_str_) ip c → c ∉ s.freed →
    s.in_clients_.lookup ip = some c
  live : ∀ ip c, s.in_clients_.lookup ip = some c → c ∉ s.freed

def ClientEvent.accepts : ClientEvent → Option String
  | .on_accept addr_ip => some addr_ip
  | .buf_err_cb _ => none

def ClientEvent.frees : ClientEvent → Option ℕ
  | .on_accept _ => none
  | .buf_err_cb c => some c

def accepted (es : List ClientEvent) : List String := es.filterMap ClientEvent.accepts

def disconnected (es : List ClientEvent) : List ℕ := es.filterMap ClientEvent.frees

structure Incoming.After (s : Incoming) (es : List ClientEvent) : Prop where
  heap : s.heap.map InClient.server_ip_str_ = accepted es
  freed : s.freed = disconnected es
  names : ∀ client ∈ s.heap, client.server_host_name_ = ""
  table : FirstWins s.in_clients_ (s.heap.map InClient.server_host_name_)

variable {s t : Incoming} {es : List ClientEvent} {e : ClientEvent}

lemma empty_after : Incoming.empty.After [] :=
  ⟨rfl, rfl, by simp [Incoming.empty], firstWins_empty⟩

lemma step_after (h : s.After es) (ht : s.step e = .ok t) : t.After (es ++ [e]) := by
  cases e with
  | on_accept addr_ip =>
    obtain rfl := Except.ok.inj ht
    refine ⟨?_, ?_, ?_, ?_⟩
    · simp [Incoming.on_accept, Incoming.add_client_in, h.heap, accepted, ClientEvent.accepts]
    · simp [Incoming.on_accept, Incoming.add_client_in, h.freed, disconnected, ClientEvent.frees]
    · intro client hclient
      cases List.mem_append.mp hclient with
      | inl hclient => exact h.names client hclient
      | inr hclient => rw [List.mem_singleton.mp hclient]
    · have hnew := h.table.emplace ""
      rw [List.length_map] at hnew
      simpa [Incoming.on_accept, Incoming.add_client_in] using hnew
  | buf_err_cb c =>
    rw [Incoming.step] at ht
    split at ht
    · obtain rfl := Except.ok.inj ht
      refine ⟨?_, ?_, h.names, h.table⟩
      · simp [h.heap, accepted, ClientEvent.accepts]
      · simp [h.freed, disconnected, ClientEvent.frees]
    · simp at ht

lemma run_after (h : run Incoming.step .empty es = .ok s) : s.After es := by
  induction es using List.reverseRecOn generalizing s with
  | nil =>
    obtain rfl : Incoming.empty = s := Except.ok.inj h
    exact empty_after
  | append_singleton es e ih =>
    obtain ⟨u, hu, hs⟩ := (run_snoc_ok _).mp h
    exact step_after (ih hu) hs

lemma lookup_after (h : s.After es) {ip : String} {c : ℕ} :
    s.in_clients_.lookup ip = some c ↔ accepted es ≠ [] ∧ c = 0 ∧ ip = "" := by
  have hnames : s.heap.map InClient.server_host_name_ = List.replicate s.heap.length "" :=
    List.eq_replicate_iff.mpr ⟨by simp, by simpa using h.names⟩
  have hne : accepted es ≠ [] ↔ 0 < s.heap.length := by
    rw [← h.heap, ← List.length_pos_iff, List.length_map]
  rw [h.table, hnames, hne]
  constructor
  · rintro ⟨hc, hfirst⟩
    obtain ⟨hlt, rfl⟩ : c < s.heap.length ∧ "" = ip := by simpa [List.getElem?_replicate] using hc
    have hzero : c = 0 := by
      by_contra hpos
      have hlen : 0 < s.heap.length := by omega
      exact hfirst 0 (by omega) (by simp [hlen])
    exact ⟨by omega, hzero, rfl⟩
  · rintro ⟨hlt, rfl, rfl⟩
    exact ⟨by simp [hlt], by simp⟩

-- the first client is connected, and no other one that is the latest of its IP is
def OnlyFirst (es : List ClientEvent) : Prop :=
  0 ∉ disconnected es ∧
    ∀ ip c, LastAt (accepted es) ip c → c ∉ disconnected es → c = 0 ∧ ip = ""

lemma tracks_iff (h : s.After es) : s.Tracks ↔ accepted es = [] ∨ OnlyFirst es := by
  by_cases hnil : accepted es = []
  · refine iff_of_true ⟨?_, ?_⟩ (.inl hnil)
    · intro ip c hlast
      rw [h.heap, hnil] at hlast
      simpa using hlast.1
    · intro ip c hc
      exact absurd hnil ((lookup_after h).mp hc).1
  · simp only [hnil, false_or]
    constructor
    · intro ht
      refine ⟨?_, ?_⟩
      · rw [← h.freed]
        exact ht.live "" 0 ((lookup_after h).mpr ⟨hnil, rfl, rfl⟩)
      · intro ip c hlast hc
        rw [← h.heap] at hlast
        rw [← h.freed] at hc
        exact ((lookup_after h).mp (ht.latest ip c hlast hc)).2
    · rintro ⟨hzero, hlatest⟩
      refine ⟨?_, ?_⟩
      · intro ip c hlast hc
        rw [h.heap] at hlast
        rw [h.freed] at hc
        exact (lookup_after h).mpr ⟨hnil, hlatest ip c hlast hc⟩
      · intro ip c hc
        rw [((lookup_after h).mp hc).2.1, h.freed]
        exact hzero

lemma first_event (h : run Incoming.step .empty (e :: es) = .ok s) :
    ∃ addr_ip, e = .on_accept addr_ip := by
  cases e with
  | on_accept addr_ip => exact ⟨addr_ip, rfl⟩
  | buf_err_cb c =>
    obtain ⟨t, ht, -⟩ := (run_cons_ok _).mp h
    simp [Incoming.step, Incoming.empty] at ht

lemma only_first_one {addr_ip : String} : OnlyFirst [.on_accept addr_ip] ↔ addr_ip = "" := by
  constructor
  · rintro ⟨-, hlatest⟩
    have hlast : LastAt (accepted [.on_accept addr_ip]) addr_ip 0 :=
      lastAt_of_nodup (by simp [accepted, ClientEvent.accepts]) rfl
    exact (hlatest addr_ip 0 hlast (by simp [disconnected, ClientEvent.frees])).2
  · rintro rfl
    refine ⟨by simp [disconnected, ClientEvent.frees], fun ip c hlast _ => ?_⟩
    have hc : c = 0 ∧ "" = ip := by
      simpa [accepted, ClientEvent.accepts, List.getElem?_singleton] using hlast.1
    exact ⟨hc.1, hc.2.symm⟩

lemma not_only_first_two {addr_ip : String}
    (h : run Incoming.step .empty [.on_accept addr_ip, e] = .ok s) :
    ¬ OnlyFirst [.on_accept addr_ip, e] := by
  rintro ⟨hzero, hlatest⟩
  cases e with
  | on_accept ip =>
    have hlast : LastAt (accepted [.on_accept addr_ip, .on_accept ip]) ip 1 := by
      refine ⟨rfl, fun j hj => ?_⟩
      have hnone : [addr_ip, ip][j]? = none := List.getElem?_eq_none (Nat.succ_le_of_lt hj)
      simp [accepted, ClientEvent.accepts, hnone]
    have hone := (hlatest ip 1 hlast (by simp [disconnected, ClientEvent.frees])).1
    simp at hone
  | buf_err_cb c =>
    obtain ⟨t, ht, hs⟩ := (run_cons_ok _).mp h
    obtain rfl := Except.ok.inj ht
    rw [run_singleton] at hs
    have hpos : ¬ c = 0 := by simpa [disconnected, ClientEvent.frees] using hzero
    rw [Incoming.step] at hs
    split at hs
    · rename_i hc
      have hlt : c < 1 := hc.1
      omega
    · simp at hs

lemma only_first_throughout (h : run Incoming.step .empty es = .ok s)
    (honly : ∀ pre post, es = pre ++ post → accepted pre ≠ [] → OnlyFirst pre) :
    es = [] ∨ es = [.on_accept ""] := by
  cases es with
  | nil => exact .inl rfl
  | cons e es =>
    obtain ⟨addr_ip, rfl⟩ := first_event h
    have hone := honly [.on_accept addr_ip] es rfl (by simp [accepted, ClientEvent.accepts])
    obtain rfl := only_first_one.mp hone
    cases es with
    | nil => exact .inr rfl
    | cons e es =>
      have hsplit : run Incoming.step .empty ([.on_accept "", e] ++ es) = .ok s := h
      obtain ⟨t, ht, -⟩ := (run_append_ok _).mp hsplit
      have htwo := honly [.on_accept "", e] es rfl (by simp [accepted, ClientEvent.accepts])
      exact absurd htwo (not_only_first_two ht)

/-- After which sequences of events the table is right, and in which runs it is right all
along. -/
theorem incoming_tracks_iff (h : run Incoming.step .empty es = .ok s) :
    (s.Tracks ↔ accepted es = [] ∨ OnlyFirst es) ∧
      ((∀ pre post t, es = pre ++ post → run Incoming.step .empty pre = .ok t → t.Tracks) ↔
        es = [] ∨ es = [.on_accept ""]) := by
  refine ⟨tracks_iff (run_after h), ?_, ?_⟩
  · intro hall
    apply only_first_throughout h
    intro pre post hsplit hne
    rw [hsplit] at h
    obtain ⟨t, ht, -⟩ := (run_append_ok _).mp h
    exact ((tracks_iff (run_after ht)).mp (hall pre post t hsplit ht)).resolve_left hne
  · intro hcase pre post t hsplit ht
    rw [tracks_iff (run_after ht)]
    cases pre with
    | nil => exact .inl rfl
    | cons e pre =>
      cases hcase with
      | inl hnil => simp [hnil] at hsplit
      | inr hone =>
        obtain ⟨rfl, hpre⟩ : ClientEvent.on_accept "" = e ∧ pre = [] ∧ post = [] := by
          simpa [hone] using hsplit
        rw [hpre.1]
        exact .inr (only_first_one.mpr rfl)

def replacedClient : List ClientEvent :=
  [.on_accept "10.0.0.1", .on_accept "10.0.0.1", .buf_err_cb 1]

theorem incoming_tracks_sample :
    ∃ s, run Incoming.step .empty replacedClient = .ok s ∧ s.Tracks := by
  obtain ⟨s, hs⟩ : ∃ s, run Incoming.step .empty replacedClient = .ok s := ⟨_, rfl⟩
  refine ⟨s, hs, (incoming_tracks_iff hs).1.mpr (.inr ⟨by decide, fun ip c hlast hc => ?_⟩)⟩
  obtain ⟨hlt, hip⟩ := List.getElem?_eq_some_iff.mp hlast.1
  have hlt : c < 2 := hlt
  interval_cases c
  · exact absurd (hip ▸ rfl) (hlast.2 1 (by decide))
  · exact absurd hc (by decide)

theorem incoming_loses_client :
    ∃ s, run Incoming.step .empty [.on_accept "10.0.0.1"] = .ok s ∧ ¬ s.Tracks := by
  refine ⟨_, rfl, fun h => ?_⟩
  have hlookup := h.latest "10.0.0.1" 0 (lastAt_of_nodup (by decide) rfl) (by decide)
  exact absurd hlookup (by decide)

end Xcoin
