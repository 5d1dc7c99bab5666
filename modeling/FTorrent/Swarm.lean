import FTorrent.Truthful
import FTorrent.Link

/-!
# Clients of one torrent

Any number of clients for the same torrent, some of whose peers are each other, with all their handlers in
any order.  A message from one of them is handled after those that it sent before, as the connections
guarantee (`arrives_of_handled`); the peers that are no such clients send what they like.  Then what a
client knows of another is so (`knows_reported`), it asks another only for blocks that the other has
(`requests_reported`), and no message but PIECE, whose index is not the one that was asked for, takes
another out of range (`handles`).
-/

namespace FTorrent

open Lib

/-! ### What two clients exchange -/

/-- The message that the entry records as sent to the peer. -/
def Note.sentTo (p : ℕ) : Note → Option Message
  | .sent q msg => if q = p then some msg else none
  | _ => none

/-- The message that the entry records as received from the peer. -/
def Note.receivedFrom (p : ℕ) : Note → Option Message
  | .received q msg => if q = p then some msg else none
  | _ => none

namespace Client

/-- What has been sent to the peer, in order. -/
def sentTo (c : Client) (p : ℕ) : List Message := c.log.reverse.filterMap (Note.sentTo p)

/-- What has been received from the peer, in order. -/
def receivedFrom (c : Client) (p : ℕ) : List Message := c.log.reverse.filterMap (Note.receivedFrom p)

end Client

/-- Who is whose peer: the peer `p` of the client `x` is the client `y`, whose peer `q` is `x`. -/
structure Wiring (ι : Type) where
  other : ι → ℕ → Option (ι × ℕ)
  symm : ∀ {x : ι} {p : ℕ} {y : ι} {q : ℕ}, other x p = some (y, q) → other y q = some (x, p)

/-- The clients. -/
abbrev Swarm (ι : Type) := ι → Client

namespace Swarm

variable {ι : Type}

/-- A message from a client is the next of those that it has sent, as the wire carries it. -/
def Arrives (w : Wiring ι) (s : Swarm ι) (x : ι) : Client.Event → Prop
  | .message _ p msg =>
    match w.other x p with
    | some (y, q) => (s x).receivedFrom p ++ [msg] <+: ((s y).sentTo q).map Message.padded
    | none => True
  | _ => True

instance (w : Wiring ι) (s : Swarm ι) (x : ι) (ev : Client.Event) : Decidable (Arrives w s x ev) := by
  unfold Arrives
  split
  · split <;> infer_instance
  · infer_instance

variable [DecidableEq ι]

def init (m : Metainfo) (content : ι → ℕ → UInt8) : Swarm ι := fun x => .init m (content x)

/-- A client takes a step. -/
def step (sha1 : List UInt8 → Hash) (w : Wiring ι) (s : Swarm ι) (ev : ι × Client.Event) :
    Except Fault (Swarm ι) :=
  if Arrives w s ev.1 ev.2 then do
    let c ← (s ev.1).step sha1 ev.2
    return Function.update s ev.1 c
  else .error .notEnabled

end Swarm

/-! ### What a connection carries -/

/-- What a connection has handled is a beginning of what the other side has passed to `send`, without the
keep-alives. -/
theorem Link.handled_isPrefix {hash : Hash} {peerId : Side → Vector UInt8 20} {l : Link}
    {es : List (Side × ConnectionEvent)}
    (hr : Run (Along (StepOf Link.step) Link.Orderly) (Link.init hash peerId) es l) (sd : Side) :
    (l.side sd).connection.handled <+:
      (((l.side sd.other).history.passed.filter (· ≠ .keepAlive)).map Message.padded).map
        fun msg => some msg.object := by
  have h := Link.joined_run hr
  obtain ⟨ms, hms, hhandled⟩ := (h.heard sd).handled
  rw [hhandled, Message.flatMap_handledAs, List.map_map]
  exact ((hms.trans (h.speaks sd.other).gated.said_prefix).filter _).map _

theorem Message.object_injective : Function.Injective fun msg : Message => some msg.object := by
  intro a b h
  have hcontent : ∀ msg : Message, msg.object.content = msg := fun msg => by cases msg <;> rfl
  rw [← hcontent a, ← hcontent b, Option.some.inj h]

/-- The messages of a client that the other handles, one after the other, off a connection of the two are
such that arrive. -/
theorem Swarm.arrives_of_handled {ι : Type} {w : Wiring ι} {s : Swarm ι} {x y : ι} {p q : ℕ}
    {hash : Hash} {peerId : Side → Vector UInt8 20} {l : Link} {es : List (Side × ConnectionEvent)}
    (hr : Run (Along (StepOf Link.step) Link.Orderly) (Link.init hash peerId) es l) (sd : Side)
    (hw : w.other x p = some (y, q))
    (hpassed : (l.side sd.other).history.passed.filter (· ≠ .keepAlive) = (s y).sentTo q)
    {ch : SortChoice} {msg : Message} (hhandled : (l.side sd).connection.handled =
      ((s x).receivedFrom p ++ [msg]).map fun msg => some msg.object) :
    Arrives w s x (.message ch p msg) := by
  have hprefix := Link.handled_isPrefix hr sd
  rw [hhandled, hpassed, List.prefix_map_iff_of_injective Message.object_injective] at hprefix
  simpa only [Arrives, hw] using hprefix

/-! ### The logs -/

theorem getElem?_of_padBits {bits : List Bool} {i : ℕ} (h : (padBits bits)[i]? = some true) :
    bits[i]? = some true := by
  rw [padBits, List.getElem?_append] at h
  split_ifs at h with hi
  · exact h
  · obtain ⟨_, hfalse⟩ := List.getElem?_eq_some_iff.1 h
    rw [List.getElem_replicate] at hfalse
    cases hfalse

theorem Note.Aside.not_received {n : Note} (h : n.Aside) (p : ℕ) : n.receivedFrom p = none := by
  cases n with
  | received | removed => cases h
  | sent | reset => rfl

namespace Client

variable {sha1 : List UInt8 → Hash} {c c' : Client} {p : ℕ}

/-- The message that an event brings from the peer. -/
def Event.brings (p : ℕ) : Event → List Message
  | .message _ q msg => if q = p then [msg] else []
  | _ => []

theorem mem_sentTo {msg : Message} : msg ∈ c.sentTo p ↔ .sent p msg ∈ c.log := by
  simp only [sentTo, List.mem_filterMap, List.mem_reverse]
  constructor
  · rintro ⟨n, hn, hmsg⟩
    cases n with
    | sent q msg' =>
      simp only [Note.sentTo, Option.ite_none_right_eq_some, Option.some.injEq] at hmsg
      obtain ⟨rfl, rfl⟩ := hmsg
      exact hn
    | received | reset | removed => cases hmsg
  · exact fun hn => ⟨_, hn, if_pos rfl⟩

theorem mem_receivedFrom {msg : Message} : msg ∈ c.receivedFrom p ↔ .received p msg ∈ c.log := by
  simp only [receivedFrom, List.mem_filterMap, List.mem_reverse]
  constructor
  · rintro ⟨n, hn, hmsg⟩
    cases n with
    | received q msg' =>
      simp only [Note.receivedFrom, Option.ite_none_right_eq_some, Option.some.injEq] at hmsg
      obtain ⟨rfl, rfl⟩ := hmsg
      exact hn
    | sent | reset | removed => cases hmsg
  · exact fun hn => ⟨_, hn, if_pos rfl⟩

theorem isPrefix_sentTo {ns : List Note} (h : c'.log = ns ++ c.log) (p : ℕ) :
    c.sentTo p <+: c'.sentTo p := by
  rw [sentTo, sentTo, h, List.reverse_append, List.filterMap_append]
  exact List.prefix_append _ _

/-- Entries that record nothing received. -/
theorem receivedFrom_of_append {ns : List Note} (h : c'.log = ns ++ c.log)
    (hns : ∀ n ∈ ns, n.receivedFrom p = none) : c'.receivedFrom p = c.receivedFrom p := by
  have hnone : ns.reverse.filterMap (Note.receivedFrom p) = [] :=
    List.filterMap_eq_nil_iff.2 fun n hn => hns n (List.mem_reverse.1 hn)
  rw [receivedFrom, receivedFrom, h, List.reverse_append, List.filterMap_append, hnone,
    List.append_nil]

theorem receivedFrom_cons {n : Note} (h : c'.log = n :: c.log) (p : ℕ) :
    c'.receivedFrom p = c.receivedFrom p ++ (n.receivedFrom p).toList := by
  rw [receivedFrom, receivedFrom, h, List.reverse_cons, List.filterMap_append]
  cases hn : n.receivedFrom p with
  | none => simp [hn]
  | some msg => simp [hn]

theorem receivedFrom_requestsFor {r : ℕ} {n : Note} (hn : n ∈ c.requestsFor p r) (k : ℕ) :
    n.receivedFrom k = none := by
  unfold requestsFor at hn
  split at hn
  · obtain ⟨b, -, rfl⟩ := List.mem_map.1 hn
    rfl
  · cases hn

/-- The log of a message handler has the message once. -/
theorem log_messageHandler {ch : SortChoice} {msg : Message} (h : c.messageHandler ch p msg = .ok c') :
    ∃ ns, c'.log = ns ++ .received p msg :: c.log ∧ ∀ n ∈ ns, ∀ k, n.receivedFrom k = none := by
  apply messageHandler_induction h
  · intro c₁ b h₁
    obtain ⟨ns, hns, haside⟩ := log_handleMessage h₁
    exact ⟨ns, hns, fun n hn => (haside n hn).not_received⟩
  · exact fun c pk _ h => h
  · rintro c r ⟨ns, hns, hnone⟩ -
    refine ⟨(c.requestsFor p r).reverse ++ ns, ?_, fun n hn => ?_⟩
    · rw [log_requestPiece_eq, hns, List.append_assoc]
    · rcases List.mem_append.1 hn with hn | hn
      · exact receivedFrom_requestsFor (List.mem_reverse.1 hn)
      · exact hnone n hn

/-- A step receives what its event brings. -/
theorem receivedFrom_step {ev : Event} (h : c.step sha1 ev = .ok c') (p : ℕ) :
    c'.receivedFrom p = c.receivedFrom p ++ ev.brings p := by
  cases kind_of_step h with
  | join => exact receivedFrom_cons (show c.addPeer.log = _ :: c.log from rfl) p
  | removal q hq => exact receivedFrom_cons (show _ = Note.removed q :: c.log from rfl) p
  | absent => exact (List.append_nil _).symm
  | message ch q msg hq hmsg =>
    obtain ⟨ns, hns, hnone⟩ := log_messageHandler hmsg
    rw [receivedFrom_of_append (c := c.note (.received q msg)) hns fun n hn => hnone n hn p,
      receivedFrom_cons (n := .received q msg) rfl p, Note.receivedFrom, Event.brings]
    split_ifs <;> rfl
  | background _ hb _ hmessage =>
    obtain ⟨ns, hns, haside⟩ := hb.log
    have hbrings : ev.brings p = [] := by
      cases ev with
      | message ch q msg => exact absurd rfl (hmessage ch q msg)
      | _ => rfl
    rw [hbrings, List.append_nil]
    exact receivedFrom_of_append hns fun n hn => (haside n hn).not_received p

/-- What is announced has been reported, or it is empty. -/
theorem Honest.announced {m : Metainfo} {told : Message} (h : c.Honest m p told) {i : ℕ}
    (hi : told.padded.announces i = true) :
    i < m.pieces.length ∧ (i ∈ c.torrent.reported ∨ m.pieceSize i = 0) := by
  cases told with
  | haveMsg index =>
    obtain rfl : index.toNat = i := beq_iff_eq.1 hi
    exact ⟨h.2, .inl h.1⟩
  | bitField bits =>
    have hbit : bits[i]? = some true := by
      apply getElem?_of_padBits
      rw [Message.padded, Message.announces] at hi
      exact (Option.getD_eq_iff.1 hi).resolve_right fun hnone => absurd hnone.2 Bool.false_ne_true
    refine ⟨?_, .inr (h.2 i hbit)⟩
    rw [← h.1]
    exact (List.getElem?_eq_some_iff.1 hbit).1
  | request | piece | keepAlive | choke | unchoke | interested | notInterested | cancel => cases hi

/-- The indices of what another client says are in range. -/
theorem Honest.inRange {m : Metainfo} {told : Message} (h : c.Honest m p told) (hc : Sound m c')
    (hm : 0 < m.pieces.length) (hpiece : ∀ i o d, told.padded ≠ .piece i o d) :
    c'.InRange told.padded := by
  have hlen := length_pieces hc.laidOut
  rw [← hlen] at hm
  cases told with
  | unchoke => exact hm
  | haveMsg index =>
    have hindex := h.2
    rwa [← hlen] at hindex
  | bitField bits =>
    refine ⟨?_, fun j hj => ?_⟩
    · rw [hlen, ← h.1, padBits_length]
      exact le_numBytes bits.length
    · rw [hlen, ← h.1]
      exact (List.getElem?_eq_some_iff.1 (getElem?_of_padBits hj)).1
  | piece i o d => exact absurd rfl (hpiece i o d)
  | request | keepAlive | choke | interested | notInterested | cancel => trivial

end Client

namespace Swarm

variable {ι : Type} [DecidableEq ι] {sha1 : List UInt8 → Hash} {m : Metainfo}
  {content : ι → ℕ → UInt8} {w : Wiring ι} {s t : Swarm ι} {x y : ι} {p q : ℕ}

theorem step_eq_ok {ev : ι × Client.Event} : step sha1 w s ev = .ok t ↔ Arrives w s ev.1 ev.2 ∧
    ∃ c, (s ev.1).step sha1 ev.2 = .ok c ∧ t = Function.update s ev.1 c := by
  unfold step
  split_ifs with h
  · simp only [h, true_and, bind_eq_ok]
    refine exists_congr fun c => and_congr_right fun _ => ?_
    exact ⟨fun heq => (Except.ok.inj heq).symm, fun heq => congrArg Except.ok heq.symm⟩
  · exact ⟨fun heq => (by cases heq), fun h' => absurd h'.1 h⟩

/-- What happens to one of the clients. -/
def eventsOf (x : ι) (es : List (ι × Client.Event)) : List Client.Event :=
  es.filterMap fun ev => if ev.1 = x then some ev.2 else none

/-- Each client of a swarm runs as it does alone. -/
theorem run_eventsOf {es : List (ι × Client.Event)} (hr : Run (StepOf (step sha1 w)) s es t) (x : ι) :
    Run (StepOf (Client.step sha1)) (s x) (eventsOf x es) (t x) := by
  induction hr with
  | nil => exact .nil _
  | @cons s t u ev es hs _ ih =>
    obtain ⟨-, c, hc, rfl⟩ := step_eq_ok.1 hs
    rw [eventsOf, List.filterMap_cons]
    by_cases hx : ev.1 = x
    · subst hx
      rw [Function.update_self] at ih
      rw [if_pos rfl]
      exact .cons hc ih
    · rw [Function.update_of_ne (Ne.symm hx)] at ih
      rwa [if_neg hx]

/-- What has been handled of a client's messages is a beginning of what it has sent. -/
def InOrder (w : Wiring ι) (s : Swarm ι) : Prop :=
  ∀ x p y q, w.other x p = some (y, q) →
    (s x).receivedFrom p <+: ((s y).sentTo q).map Message.padded

theorem InOrder.step (h : InOrder w s) {ev : ι × Client.Event} (hs : step sha1 w s ev = .ok t) :
    InOrder w t := by
  obtain ⟨harrives, c, hc, rfl⟩ := step_eq_ok.1 hs
  obtain ⟨z, ev⟩ := ev
  intro x p y q hxy
  have hsent : ((s y).sentTo q).map Message.padded <+:
      ((Function.update s z c y).sentTo q).map Message.padded := by
    by_cases hy : y = z
    · subst hy
      obtain ⟨ns, hns⟩ := Client.log_step hc
      rw [Function.update_self]
      exact (Client.isPrefix_sentTo hns q).map _
    · rw [Function.update_of_ne hy]
  refine List.IsPrefix.trans ?_ hsent
  by_cases hx : x = z
  · subst hx
    rw [Function.update_self, Client.receivedFrom_step hc]
    cases ev with
    | message ch k msg =>
      rw [Client.Event.brings]
      split_ifs with hk
      · subst hk
        simp only [Arrives, hxy] at harrives
        exact harrives
      · rw [List.append_nil]
        exact h x p y q hxy
    | _ =>
      rw [Client.Event.brings, List.append_nil]
      · exact h x p y q hxy
      · exact nofun
  · rw [Function.update_of_ne hx]
    exact h x p y q hxy

theorem inOrder_run {es : List (ι × Client.Event)}
    (hr : Run (StepOf (step sha1 w)) (init m content) es s) : InOrder w s :=
  hr.invariant (fun _ _ _ h hs => h.step hs) fun _ _ _ _ _ => List.nil_prefix

/-! ### A swarm of two -/

/-- Two clients, each of which is the first peer of the other. -/
def pair : Wiring Bool where
  other x p := if p = 0 then some (!x, 0) else none
  symm {x p y q} h := by
    split_ifs at h with hp
    obtain ⟨rfl, rfl⟩ := Prod.mk.inj (Option.some.inj h)
    simp [hp]

/-- One client has the byte from a third peer, and announces it; the other asks for it. -/
def pairEvents : List (Bool × Client.Event) :=
  [(true, .addPeer), (false, .addPeer), (true, .addPeer)] ++
    [(true, .message ⟨.reverseTies, .still ℕ⟩ 1 (.piece 0 0 [0])), (true, .transfer ⟨0, 0, 0, [0], 1, 0⟩ 1),
      (true, .written ⟨0, 0, 0, [0], 1, 1⟩ .success), (true, .fetch ⟨0, 0, 1, []⟩ 1),
      (true, .validated ⟨0, 0, 1, [0]⟩)] ++
    [(false, .message ⟨.reverseTies, .still ℕ⟩ 0 (.bitField (.replicate 8 false))),
      (false, .message ⟨.reverseTies, .still ℕ⟩ 0 (.haveMsg 0)), (true, .unchokeUpload 0),
      (false, .message ⟨.reverseTies, .still ℕ⟩ 0 .unchoke),
      (true, .message ⟨.reverseTies, .still ℕ⟩ 0 (.bitField (.replicate 8 false))),
      (true, .message ⟨.reverseTies, .still ℕ⟩ 0 .interested)]

/-- The REQUEST is the next message to arrive. -/
theorem pair_run : ∃ s, Run (StepOf (step (fun _ => .replicate 20 0) pair)) (init oneByte fun _ _ => 5)
    pairEvents s ∧ (s false).has 0 0 = true ∧ 0 ∈ (s true).registered ∧
      Arrives pair s true (.message ⟨.reverseTies, .still ℕ⟩ 0 (.request 0 0 1)) :=
  exists_run (by decide +kernel)

/-! ### What is said and heard is so -/

theorem told_of_received {es : List (ι × Client.Event)}
    (hr : Run (StepOf (step sha1 w)) (init m content) es s) (hw : w.other x p = some (y, q))
    {msg : Message} (hn : .received p msg ∈ (s x).log) :
    ∃ told : Message, msg = told.padded ∧ (s y).Honest m q told := by
  have hmem := (inOrder_run hr x p y q hw).subset (Client.mem_receivedFrom.2 hn)
  obtain ⟨told, htold, rfl⟩ := List.mem_map.1 hmem
  exact ⟨told, rfl, Client.honest_of_run (run_eventsOf hr y) (Client.mem_sentTo.1 htold)⟩

/-- A client has reported what it announces. -/
theorem reported_of_announced {es : List (ι × Client.Event)}
    (hr : Run (StepOf (step sha1 w)) (init m content) es s) (hw : w.other x p = some (y, q)) {i : ℕ}
    (hi : announcedBy p i (s x).log) :
    i < m.pieces.length ∧ (i ∈ (s y).torrent.reported ∨ m.pieceSize i = 0) := by
  obtain ⟨msg, hmsg, hannounces⟩ := hi
  obtain ⟨told, rfl, hhonest⟩ := told_of_received hr hw hmsg
  exact hhonest.announced hannounces

/-- What a client knows another to have, the other has reported, or it is empty. -/
theorem knows_reported {es : List (ι × Client.Event)}
    (hr : Run (StepOf (step sha1 w)) (init m content) es s) (hw : w.other x p = some (y, q)) {i : ℕ}
    (hi : (s x).has p i = true) :
    i < m.pieces.length ∧ (i ∈ (s y).torrent.reported ∨ m.pieceSize i = 0) := by
  have htold : Client.Told m (s x) :=
    (run_eventsOf hr x).invariant (fun _ _ _ h hs => h.step hs) Client.Told.init
  exact reported_of_announced hr hw (htold.announced p i hi)

theorem knows_reported_pair : ∃ s,
    Run (StepOf (step (fun _ => .replicate 20 0) pair)) (init oneByte fun _ _ => 5) pairEvents s ∧
      (s false).has 0 0 = true ∧ 0 ∈ (s true).torrent.reported := by
  obtain ⟨s, hr, hhas, -⟩ := pair_run
  have hreported := (knows_reported hr (w := pair) (x := false) (p := 0) (y := true) (q := 0) rfl hhas).2
  exact ⟨s, hr, hhas, hreported.resolve_right (by decide)⟩

/-- What a client is asked for by another is a block, or the beginning of one, of a piece that it has
reported. -/
theorem requests_reported {es : List (ι × Client.Event)}
    (hr : Run (StepOf (step sha1 w)) (init m content) es s) (hw : w.other x p = some (y, q))
    {index begin length : UInt32} (hn : .received p (.request index begin length) ∈ (s x).log) :
    index.toNat ∈ (s x).torrent.reported ∧ begin.toNat % Piece.nominalBlockSize = 0 ∧
      begin.toNat + length.toNat ≤ m.pieceSize index.toNat := by
  obtain ⟨told, hmsg, hhonest⟩ := told_of_received hr hw hn
  obtain rfl : told = .request index begin length := by
    cases told <;> cases hmsg
    rfl
  obtain ⟨hannounced, -, hmod, hbegin, hend⟩ := hhonest
  refine ⟨?_, hmod, hend⟩
  rcases (reported_of_announced hr (w.symm hw) hannounced).2 with hreported | hempty
  · exact hreported
  · exact absurd hempty (by omega)

theorem requests_reported_pair : ∃ s,
    Run (StepOf (step (fun _ => .replicate 20 0) pair)) (init oneByte fun _ _ => 5)
      (pairEvents ++ [(true, .message ⟨.reverseTies, .still ℕ⟩ 0 (.request 0 0 1))]) s ∧
      .received 0 (.request 0 0 1) ∈ (s true).log ∧ 0 ∈ (s true).torrent.reported := by
  obtain ⟨s, hr, hn⟩ : ∃ s, Run (StepOf (step (fun _ => .replicate 20 0) pair))
      (init oneByte fun _ _ => 5)
      (pairEvents ++ [(true, .message ⟨.reverseTies, .still ℕ⟩ 0 (.request 0 0 1))]) s ∧
      .received 0 (.request 0 0 1) ∈ (s true).log := exists_run (by decide +kernel)
  have hreported := (requests_reported hr (w := pair) (x := true) (y := false) (q := 0) rfl hn).1
  exact ⟨s, hr, hn, hreported⟩

/-- A message from another client is handled, unless it is a PIECE. -/
theorem handles {es : List (ι × Client.Event)} (hm : 0 < m.pieces.length)
    (hr : Run (StepOf (step sha1 w)) (init m content) es s) (hw : w.other x p = some (y, q))
    (hp : p ∈ (s x).registered) (ch : SortChoice) {msg : Message}
    (harrives : Arrives w s x (.message ch p msg)) (hpiece : ∀ i o d, msg ≠ .piece i o d) :
    ∃ t, step sha1 w s (x, .message ch p msg) = .ok t := by
  have hsound := Client.sound_run (run_eventsOf hr x)
  have hmem : msg ∈ ((s y).sentTo q).map Message.padded := by
    simp only [Arrives, hw] at harrives
    exact harrives.subset (List.mem_append_right _ List.mem_cons_self)
  obtain ⟨told, htold, rfl⟩ := List.mem_map.1 hmem
  have hhonest := Client.honest_of_run (run_eventsOf hr y) (Client.mem_sentTo.1 htold)
  obtain ⟨c, hc⟩ := Client.messageHandler_ok hsound (hsound.registered p hp) ch
    (hhonest.inRange hsound hm hpiece)
  exact ⟨_, step_eq_ok.2 ⟨harrives, c, Client.message_eq_ok.2 ⟨hp, hc⟩, rfl⟩⟩

theorem handles_pair : ∃ s t,
    Run (StepOf (step (fun _ => .replicate 20 0) pair)) (init oneByte fun _ _ => 5) pairEvents s ∧
      step (fun _ => .replicate 20 0) pair s
        (true, .message ⟨.reverseTies, .still ℕ⟩ 0 (.request 0 0 1)) = .ok t := by
  obtain ⟨s, hr, -, hp, harrives⟩ := pair_run
  obtain ⟨t, ht⟩ := handles (y := false) (q := 0) (by decide) hr rfl hp _ harrives nofun
  exact ⟨s, t, hr, ht⟩

end Swarm

end FTorrent
