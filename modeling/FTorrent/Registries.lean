import FTorrent.Choker

/-!
# The registries of peers

`PeerHandler` and the choker each keep the peers.  Both entry points, `add_peer` and `accept_peer`,
register a peer in both; but `remove_peer`, which a failed connect calls, does not tell the choker, and
the handler of `async_connect` goes on to `start` after it.  The registries agree throughout exactly
those runs in which every connect succeeds (`registriesAgree_iff`).

A peer is the number of peers made before it.  The functions return the state as it stands when an
exception leaves a handler, which ends the program (`ended`).
-/

namespace FTorrent

open Lib

/-- An operation on the socket of a peer: `async_connect`, `remote_endpoint`, the write of the handshake
and the read of the remote's. -/
inductive SocketOp where
  | connect
  | remoteEndpoint
  | writeHandshake
  | readHandshake
  deriving DecidableEq

/-- What the history records about sockets. -/
inductive SocketNote where
  | op (peer : ℕ) (operation : SocketOp)
  | connected (peer : ℕ)
  | failed (peer : ℕ)
  deriving DecidableEq

/-- `PeerHandler`, with the number of peers made, the connects under way, whether an `async_accept` is,
and the history, latest first. -/
structure PeerHandler where
  localEndpoints : List PeerDescriptor
  peers : List ℕ := []
  choker : LeechChoker := {}
  made : ℕ := 0
  connecting : List ℕ := []
  accepting : Bool := true
  ended : Bool := false
  log : List SocketNote := []

namespace PeerHandler

def note (h : PeerHandler) (n : SocketNote) : PeerHandler := { h with log := n :: h.log }

/-- `PeerConnection::start`, where `remote` is the error that `remote_endpoint` meets; it throws if there
is one. -/
def start (h : PeerHandler) (p : ℕ) (remote : ErrorCode) : PeerHandler :=
  let h := h.note (.op p .remoteEndpoint)
  if remote.value ≠ 0 then { h with ended := true }
  else (h.note (.op p .writeHandshake)).note (.op p .readHandshake)

/-- What both entry points do with the peer they make. -/
def register (h : PeerHandler) : PeerHandler :=
  { h with
    made := h.made + 1
    peers := h.peers ++ [h.made]
    choker := h.choker.addPeer h.made }

/-- `add_peer`: no peer is made for an endpoint of our own. -/
def addPeer (h : PeerHandler) (descriptor : PeerDescriptor) : PeerHandler :=
  if descriptor ∈ h.localEndpoints then h
  else
    { (h.note (.op h.made .connect)).register with connecting := h.connecting ++ [h.made] }

/-- `accept_peer`; `remote` and `remote'` are what `remote_endpoint` meets, here and in `start`.  After
an error no other `async_accept` follows. -/
def acceptPeer (h : PeerHandler) (e remote remote' : ErrorCode) : PeerHandler :=
  if e.value ≠ 0 then { h with accepting := false }
  else if remote.value ≠ 0 then { h with ended := true }
  else (h.note (.connected h.made)).register.start h.made remote'

/-- `remove_peer`; `Peer::stop` does nothing. -/
def removePeer (h : PeerHandler) (p : ℕ) : PeerHandler :=
  if p ∈ h.peers then { h with peers := h.peers.erase p } else h

/-- The handler of `async_connect`, which calls `start` in any case. -/
def connectHandler (h : PeerHandler) (p : ℕ) (e remote : ErrorCode) : PeerHandler :=
  let h := { h with connecting := h.connecting.erase p }
  let h := if e.value ≠ 0 then (h.note (.failed p)).removePeer p else h.note (.connected p)
  h.start p remote

inductive Event where
  | addPeer (descriptor : PeerDescriptor)
  | accepted (e remote remote' : ErrorCode)
  | connectDone (peer : ℕ) (e remote : ErrorCode)
  deriving DecidableEq

def step (h : PeerHandler) (ev : Event) : Except Fault PeerHandler :=
  if h.ended then .error .notEnabled
  else
    match ev with
    | .addPeer descriptor => .ok (h.addPeer descriptor)
    | .accepted e remote remote' =>
      if h.accepting then .ok (h.acceptPeer e remote remote') else .error .notEnabled
    | .connectDone p e remote =>
      if p ∈ h.connecting then .ok (h.connectHandler p e remote) else .error .notEnabled

/-- The peer has been made, and its connection attempt, if there was one, has not failed. -/
def Live (h : PeerHandler) (p : ℕ) : Prop := p < h.made ∧ .failed p ∉ h.log

/-- No operation was issued on a socket after its connect had failed. -/
def QuietAfterFailure : List SocketNote → Prop
  | .op p _ :: log => .failed p ∉ log ∧ QuietAfterFailure log
  | _ :: log => QuietAfterFailure log
  | [] => True

/-- Both registries contain the peers whose connection attempt has not failed, and what goes over a
socket goes over one that is connected. -/
structure RegistriesAgree (h : PeerHandler) : Prop where
  peers : ∀ p, p ∈ h.peers ↔ h.Live p
  choker : ∀ p, p ∈ h.choker.peers ↔ h.Live p
  started : ∀ p, .op p .writeHandshake ∈ h.log ∨ .op p .readHandshake ∈ h.log →
    .connected p ∈ h.log
  quiet : QuietAfterFailure h.log

/-- A connect ends without an error. -/
def Connects (_ : PeerHandler) : Event → Prop
  | .connectDone _ e _ => e.value = 0
  | _ => True

/-- No connect has failed so far. -/
structure RegistryInv (h : PeerHandler) : Prop where
  agree : RegistriesAgree h
  unfailed : ∀ p, .failed p ∉ h.log
  connecting : ∀ p ∈ h.connecting, p < h.made

variable {h t : PeerHandler} {p : ℕ}

section Start

variable (h : PeerHandler) (p : ℕ) (remote : ErrorCode)

@[simp] theorem peers_start : (h.start p remote).peers = h.peers := by
  unfold start
  split_ifs <;> rfl

@[simp] theorem choker_start : (h.start p remote).choker = h.choker := by
  unfold start
  split_ifs <;> rfl

@[simp] theorem made_start : (h.start p remote).made = h.made := by
  unfold start
  split_ifs <;> rfl

@[simp] theorem connecting_start : (h.start p remote).connecting = h.connecting := by
  unfold start
  split_ifs <;> rfl

/-- `start` issues operations on the socket of its peer. -/
theorem log_start : ∃ ops : List SocketOp,
    (h.start p remote).log = ops.map (.op p) ++ h.log := by
  unfold start
  split_ifs
  · exact ⟨[.remoteEndpoint], rfl⟩
  · exact ⟨[.readHandshake, .writeHandshake, .remoteEndpoint], rfl⟩

end Start

theorem quiet_ops {ops : List SocketOp} {log : List SocketNote} (hp : .failed p ∉ log)
    (hlog : QuietAfterFailure log) : QuietAfterFailure (ops.map (.op p) ++ log) := by
  induction ops with
  | nil => exact hlog
  | cons o ops ih =>
    refine ⟨fun hmem => ?_, ih⟩
    rcases List.mem_append.1 hmem with hmem | hmem
    · obtain ⟨o', -, ho'⟩ := List.mem_map.1 hmem
      cases ho'
    · exact hp hmem

theorem live_iff (hinv : RegistryInv h) : h.Live p ↔ p < h.made := by
  unfold Live
  exact and_iff_left (hinv.unfailed p)

/-- What a step does. -/
theorem step_cases {ev : Event} (hs : h.step ev = .ok t) :
    (∃ d, ev = .addPeer d ∧ t = h.addPeer d) ∨
    (∃ e remote remote', ev = .accepted e remote remote' ∧ t = h.acceptPeer e remote remote') ∨
    ∃ p e remote, ev = .connectDone p e remote ∧ p ∈ h.connecting ∧
      t = h.connectHandler p e remote := by
  unfold step at hs
  by_cases hended : h.ended = true
  · rw [if_pos hended] at hs
    cases hs
  · rw [if_neg hended] at hs
    cases ev with
    | addPeer d => exact .inl ⟨d, rfl, (Except.ok.inj hs).symm⟩
    | accepted e remote remote' =>
      dsimp only at hs
      split_ifs at hs
      exact .inr (.inl ⟨e, remote, remote', rfl, (Except.ok.inj hs).symm⟩)
    | connectDone p e remote =>
      dsimp only at hs
      split_ifs at hs with hp
      exact .inr (.inr ⟨p, e, remote, rfl, hp, (Except.ok.inj hs).symm⟩)

/-- A failed connect is recorded, and the choker not told. -/
theorem choker_connectHandler {e : ErrorCode} (he : e.value ≠ 0) (remote : ErrorCode) :
    (h.connectHandler p e remote).choker = h.choker ∧
      .failed p ∈ (h.connectHandler p e remote).log := by
  have hremove : ∀ h : PeerHandler,
      (h.removePeer p).choker = h.choker ∧ (h.removePeer p).log = h.log := by
    intro h
    unfold removePeer
    split_ifs
    · exact ⟨rfl, rfl⟩
    · exact ⟨rfl, rfl⟩
  unfold connectHandler
  dsimp only
  rw [if_pos he]
  constructor
  · rw [choker_start, (hremove _).1]
    rfl
  · obtain ⟨ops, hlog⟩ := log_start ((({ h with connecting := h.connecting.erase p } :
      PeerHandler).note (.failed p)).removePeer p) p remote
    rw [hlog, (hremove _).2]
    exact List.mem_append_right _ List.mem_cons_self

namespace RegistryInv

theorem init (localEndpoints : List PeerDescriptor) :
    RegistryInv { localEndpoints := localEndpoints } := by
  refine ⟨⟨fun p => ?_, fun p => ?_, fun p hp => ?_, trivial⟩, fun p hp => ?_, fun p hp => ?_⟩
  · simp [Live]
  · simp [Live]
  · simp at hp
  · simp at hp
  · simp at hp

/-- A step of the sockets only. -/
theorem of_same (hinv : RegistryInv h) (hpeers : t.peers = h.peers) (hchoker : t.choker = h.choker)
    (hmade : t.made = h.made) (hconnecting : ∀ p ∈ t.connecting, p ∈ h.connecting)
    (hunfailed : ∀ p, .failed p ∉ t.log)
    (hstarted : ∀ p, .op p .writeHandshake ∈ t.log ∨ .op p .readHandshake ∈ t.log →
      .connected p ∈ t.log) (hquiet : QuietAfterFailure t.log) : RegistryInv t := by
  have hlive : ∀ p, t.Live p ↔ h.Live p := by
    intro p
    rw [live_iff hinv, Live, hmade]
    exact and_iff_left (hunfailed p)
  refine ⟨⟨fun p => ?_, fun p => ?_, hstarted, hquiet⟩, hunfailed, fun p hp => ?_⟩
  · rw [hpeers, hlive]
    exact hinv.agree.peers p
  · rw [hchoker, hlive]
    exact hinv.agree.choker p
  · rw [hmade]
    exact hinv.connecting p (hconnecting p hp)

/-- `start` on a socket that is connected. -/
theorem start (hinv : RegistryInv h) (hp : .connected p ∈ h.log) (remote : ErrorCode) :
    RegistryInv (h.start p remote) := by
  obtain ⟨ops, hlog⟩ := log_start h p remote
  apply hinv.of_same (t := h.start p remote) (by simp) (by simp) (by simp)
  · intro q hq
    rwa [connecting_start] at hq
  · intro q hq
    rw [hlog] at hq
    exact hinv.unfailed q (by simpa using hq)
  · intro q hq
    rw [hlog] at hq ⊢
    apply List.mem_append_right
    by_cases hqp : q = p
    · exact hqp ▸ hp
    · exact hinv.agree.started q (by simpa [Ne.symm hqp] using hq)
  · rw [hlog]
    exact quiet_ops (hinv.unfailed p) hinv.agree.quiet

/-- A new peer is registered in both. -/
theorem register (hinv : RegistryInv h) : RegistryInv h.register := by
  have hlive : ∀ p, h.register.Live p ↔ h.Live p ∨ p = h.made := by
    intro p
    have hnone := hinv.unfailed p
    simp only [Live, PeerHandler.register, hnone, not_false_iff, and_true]
    omega
  refine ⟨⟨fun p => ?_, fun p => ?_, hinv.agree.started, hinv.agree.quiet⟩, hinv.unfailed,
    fun p hp => (hinv.connecting p hp).trans (Nat.lt_succ_self _)⟩
  · rw [hlive, ← hinv.agree.peers]
    simp [PeerHandler.register]
  · rw [hlive, ← hinv.agree.choker]
    simp [PeerHandler.register, LeechChoker.addPeer]

/-- A note about a socket that neither failed nor was written to. -/
theorem noted (hinv : RegistryInv h) {n : SocketNote}
    (hn : n = .op p .connect ∨ n = .connected p) : RegistryInv (h.note n) := by
  apply hinv.of_same (t := h.note n) rfl rfl rfl fun _ hq => hq
  · intro q hq
    rcases hn with rfl | rfl
    · exact hinv.unfailed q (by simpa [note] using hq)
    · exact hinv.unfailed q (by simpa [note] using hq)
  · intro q hq
    rcases hn with rfl | rfl
    · have hq' := hinv.agree.started q (by simpa [note] using hq)
      simpa [note] using hq'
    · have hq' := hinv.agree.started q (by simpa [note] using hq)
      exact List.mem_cons_of_mem _ hq'
  · rcases hn with rfl | rfl
    · exact ⟨hinv.unfailed p, hinv.agree.quiet⟩
    · exact hinv.agree.quiet

theorem addPeer (hinv : RegistryInv h) (d : PeerDescriptor) : RegistryInv (h.addPeer d) := by
  unfold PeerHandler.addPeer
  split_ifs
  · exact hinv
  · have hreg := (hinv.noted (p := h.made) (.inl rfl)).register
    refine ⟨⟨hreg.agree.peers, hreg.agree.choker, hreg.agree.started, hreg.agree.quiet⟩,
      hreg.unfailed, fun q hq => ?_⟩
    rcases List.mem_append.1 hq with hq | hq
    · exact (hinv.connecting q hq).trans (Nat.lt_succ_self _)
    · rw [List.mem_singleton.1 hq]
      exact Nat.lt_succ_self _

theorem acceptPeer (hinv : RegistryInv h) (e remote remote' : ErrorCode) :
    RegistryInv (h.acceptPeer e remote remote') := by
  have hsame : ∀ accepting ended, RegistryInv { h with accepting := accepting, ended := ended } :=
    fun _ _ => hinv.of_same rfl rfl rfl (fun _ hq => hq) hinv.unfailed hinv.agree.started
      hinv.agree.quiet
  unfold PeerHandler.acceptPeer
  split_ifs
  · exact hsame _ _
  · exact hsame _ _
  · have hreg := (hinv.noted (p := h.made) (.inr rfl)).register
    exact hreg.start List.mem_cons_self remote'

/-- The handler of a connect that has succeeded. -/
theorem connectHandler (hinv : RegistryInv h) {e : ErrorCode} (he : e.value = 0)
    (remote : ErrorCode) : RegistryInv (h.connectHandler p e remote) := by
  have herase : RegistryInv { h with connecting := h.connecting.erase p } :=
    hinv.of_same rfl rfl rfl (fun _ hq => List.mem_of_mem_erase hq) hinv.unfailed
      hinv.agree.started hinv.agree.quiet
  unfold PeerHandler.connectHandler
  dsimp only
  rw [if_neg (not_not.2 he)]
  exact (herase.noted (.inr rfl)).start List.mem_cons_self remote

theorem step {ev : Event} (hinv : RegistryInv h) (hs : h.step ev = .ok t) (hC : h.Connects ev) :
    RegistryInv t := by
  rcases step_cases hs with
    ⟨d, rfl, rfl⟩ | ⟨e, remote, remote', rfl, rfl⟩ | ⟨p, e, remote, rfl, -, rfl⟩
  · exact hinv.addPeer d
  · exact hinv.acceptPeer e remote remote'
  · exact hinv.connectHandler hC remote

/-- After a failed connect the choker still has the peer. -/
theorem not_registriesAgree {ev : Event} (hinv : RegistryInv h) (hs : h.step ev = .ok t)
    (hC : ¬ h.Connects ev) : ¬ RegistriesAgree t := by
  rcases step_cases hs with
    ⟨d, rfl, rfl⟩ | ⟨e, remote, remote', rfl, rfl⟩ | ⟨p, e, remote, rfl, hp, rfl⟩
  · exact absurd trivial hC
  · exact absurd trivial hC
  · have hchoker : p ∈ h.choker.peers := by
      rw [hinv.agree.choker, live_iff hinv]
      exact hinv.connecting p hp
    intro hagree
    obtain ⟨hkept, hfailed⟩ := choker_connectHandler (h := h) (p := p) hC remote
    rw [← hkept] at hchoker
    exact ((hagree.choker p).1 hchoker).2 hfailed

end RegistryInv

/-- Both registries contain exactly the peers whose connection attempt has not failed, and only connected
sockets are used, throughout exactly those runs in which every connect succeeds. -/
theorem registriesAgree_iff (localEndpoints : List PeerDescriptor) (es : List Event) :
    Always (StepOf step) RegistriesAgree { localEndpoints := localEndpoints } es ↔
      Each (StepOf step) Connects { localEndpoints := localEndpoints } es :=
  always_iff_each (R := StepOf step) (J := RegistryInv) (fun _ hinv => hinv.agree)
    (fun _ _ _ hinv hs hC => hinv.step hs hC)
    (fun _ _ t hinv hs hC => ⟨t, hs, hinv.not_registriesAgree hs hC⟩) (.init localEndpoints)

/-- The connection to a peer is refused. -/
def refused : List Event :=
  [.addPeer ⟨2130706433, 50007⟩,
    .connectDone 0 ⟨111, "Connection refused"⟩ ⟨107, "Transport endpoint is not connected"⟩]

theorem not_registriesAgree_refused :
    ¬ ∀ (localEndpoints : List PeerDescriptor) (es : List Event),
      Always (StepOf step) RegistriesAgree { localEndpoints := localEndpoints } es := by
  intro h
  have hr : Run (StepOf step) { localEndpoints := [] } refused _ := .cons rfl <| .cons rfl <| .nil _
  have hagree := (h [] refused).of_run hr
  have hlive := (hagree.choker 0).1 (by decide)
  exact hlive.2 (by decide)

/-! ### The peers of the client -/

/-- The client has made and registered the same peers. -/
structure Mirrors (h : PeerHandler) (c : Client) : Prop where
  registered : c.registered = h.peers
  made : c.peers.length = h.made

section Mirrors

variable {sha1 : List UInt8 → Hash} {c : Client}

theorem Mirrors.addPeer (hm : Mirrors h c) (ht : t.peers = h.peers ++ [h.made])
    (hmade : t.made = h.made + 1) : Mirrors t c.addPeer := by
  refine ⟨?_, ?_⟩
  · rw [ht, ← hm.registered, ← hm.made]
    rfl
  · rw [hmade, ← hm.made]
    exact List.length_append

theorem Mirrors.removePeer (hm : Mirrors h c) (p : ℕ) :
    Mirrors (h.removePeer p) (c.removePeer p) := by
  unfold PeerHandler.removePeer Client.removePeer
  rw [hm.registered]
  split_ifs
  · exact ⟨rfl, hm.made⟩
  · exact hm

/-- A connect that fails removes the peer. -/
theorem Mirrors.connectFailed (hm : Mirrors h c) {e : ErrorCode} (he : e.value ≠ 0) (p : ℕ)
    (remote : ErrorCode) : Mirrors (h.connectHandler p e remote) (c.removePeer p) := by
  have hnoted : Mirrors ({ h with connecting := h.connecting.erase p }.note (.failed p)) c :=
    ⟨hm.registered, hm.made⟩
  have hremoved := hnoted.removePeer p
  unfold connectHandler
  dsimp only
  rw [if_pos he]
  refine ⟨?_, ?_⟩
  · rw [peers_start]
    exact hremoved.registered
  · rw [made_start]
    exact hremoved.made

theorem Mirrors.connected (hm : Mirrors h c) {e : ErrorCode} (he : ¬ e.value ≠ 0) (p : ℕ)
    (remote : ErrorCode) : Mirrors (h.connectHandler p e remote) c := by
  unfold connectHandler
  dsimp only
  rw [if_neg he]
  refine ⟨?_, ?_⟩
  · rw [peers_start]
    exact hm.registered
  · rw [made_start]
    exact hm.made

/-- A step of the peer handler is a join, a removal or nothing for the client. -/
theorem Mirrors.step (hm : Mirrors h c) {ev : Event} (hs : h.step ev = .ok t) :
    ∃ es c', Run (StepOf (Client.step sha1)) c es c' ∧ Mirrors t c' := by
  have hskip : t.peers = h.peers → t.made = h.made →
      ∃ es c', Run (StepOf (Client.step sha1)) c es c' ∧ Mirrors t c' := by
    intro hpeers hmade
    exact ⟨[], c, .nil c, hm.registered.trans hpeers.symm, hm.made.trans hmade.symm⟩
  have hjoin : t.peers = h.peers ++ [h.made] → t.made = h.made + 1 →
      ∃ es c', Run (StepOf (Client.step sha1)) c es c' ∧ Mirrors t c' := by
    intro hpeers hmade
    exact ⟨[.addPeer], c.addPeer, .single rfl, hm.addPeer hpeers hmade⟩
  rcases step_cases hs with
    ⟨d, rfl, rfl⟩ | ⟨e, remote, remote', rfl, rfl⟩ | ⟨p, e, remote, rfl, -, rfl⟩
  · unfold PeerHandler.addPeer at hskip hjoin ⊢
    split_ifs at hskip hjoin ⊢
    · exact hskip rfl rfl
    · exact hjoin rfl rfl
  · unfold acceptPeer at hskip hjoin ⊢
    split_ifs at hskip hjoin ⊢
    · exact hskip rfl rfl
    · exact hskip rfl rfl
    · apply hjoin
      · rw [peers_start]
        rfl
      · rw [made_start]
        rfl
  · by_cases he : e.value ≠ 0
    · exact ⟨[.removePeer p], c.removePeer p, .single rfl, hm.connectFailed he p remote⟩
    · exact ⟨[], c, .nil c, hm.connected he p remote⟩

/-- The client's registered peers are those of the peer handler. -/
theorem mirrors_run {localEndpoints : List PeerDescriptor} {es : List Event} (m : Metainfo)
    (content : ℕ → UInt8) (hr : Run (StepOf step) { localEndpoints := localEndpoints } es h) :
    ∃ es' c, Run (StepOf (Client.step sha1)) (Client.init m content) es' c ∧ Mirrors h c := by
  apply hr.invariant (J := fun h => ∃ es' c,
    Run (StepOf (Client.step sha1)) (Client.init m content) es' c ∧ Mirrors h c)
  · rintro h ev t ⟨es', c, hrun, hm⟩ hs
    obtain ⟨es'', c', hrun', hm'⟩ := hm.step hs
    exact ⟨es' ++ es'', c', hrun.append hrun', hm'⟩
  · exact ⟨[], _, .nil _, rfl, rfl⟩

end Mirrors

end PeerHandler

end FTorrent
