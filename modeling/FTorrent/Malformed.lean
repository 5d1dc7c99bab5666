import FTorrent.PeerConnection

/-!
# Malformed frames

A frame that is too short for its kind makes the deserializer throw in the handler of
`recieve_message`, and a frame of another kind calls `message_handler` with the null pointer.  All
other frames are dispatched as the messages they hold (`survives_iff`).
-/

namespace FTorrent

open Lib

/-- The bytes of a frame. -/
def frameBytes (len : UInt32) (id : UInt8) (payload : List UInt8) : List UInt8 :=
  bigEndian len ++ id :: payload

/-- The fields of the message stand in the payload of a frame. -/
def Message.Holds (payload : List UInt8) : Message → Prop
  | .keepAlive => False
  | .choke | .unchoke | .interested | .notInterested => True
  | .haveMsg index => bigEndian index <+: payload
  | .bitField bitfield => bitfield = payload.flatMap unpackByte
  | .request index begin length | .cancel index begin length =>
    bigEndian index ++ (bigEndian begin ++ bigEndian length) <+: payload
  | .piece index begin block => payload = bigEndian index ++ (bigEndian begin ++ block)

/-- The object is of the kind that the id says, and has the fields of the frame. -/
structure MessageObject.OfFrame (o : MessageObject) (id : UInt8) (payload : List UInt8) : Prop where
  id_eq : o.id = id
  kind : o.content.object.id = id
  holds : o.content.Holds payload

/-- Whether a frame of this kind and length is long enough to be read. -/
def Readable (len : ℕ) (id : UInt8) : Prop :=
  match EMessageId.ofValue id with
  | some .choke | some .unchoke | some .interested | some .notInterested | some .bitField => True
  | some .haveMsg => 5 ≤ len
  | some .request | some .cancel => 13 ≤ len
  | some .piece => 9 ≤ len
  | some .port | some .handshake | some .keepAlive | none => False

theorem EMessageId.value_of_ofValue {id : UInt8} {k : EMessageId} (h : ofValue id = some k) :
    k.value = id := by
  simpa using List.find?_some h

theorem frameBytes_eq (len : UInt32) (id : UInt8) (payload : List UInt8) :
    frameBytes len id payload = (bigEndian len ++ [id]) ++ payload := by
  rw [frameBytes, List.append_assoc, List.singleton_append]

variable {len : UInt32} {id : UInt8} {payload : List UInt8}

/-- A reader that takes a first part of the payload. -/
theorem read_frameBytes {r : Reader MessageObject} {bs rest : List UInt8} {o : MessageObject}
    (hr : Deserializer.source.Reads r ((bigEndian len ++ [id]) ++ bs) o)
    (hp : payload = bs ++ rest) (hlt : payload.length + 1 < 2 ^ 28) :
    ∃ t, (some <$> r) ⟨frameBytes len id payload, 0⟩ = .ok (some o, t) := by
  subst hp
  have hlen : (frameBytes len id (bs ++ rest)).length < 2 ^ 32 := by
    rw [frameBytes, List.length_append, bigEndian_length, List.length_cons]
    omega
  obtain ⟨t, ht, -⟩ := hr ⟨frameBytes len id (bs ++ rest), 0⟩ rest ⟨hlen, Nat.zero_le _⟩ (by
    show frameBytes len id (bs ++ rest) = _
    rw [frameBytes_eq, List.append_assoc, List.append_assoc, List.append_assoc])
  refine ⟨t, ?_⟩
  show (r ⟨frameBytes len id (bs ++ rest), 0⟩ >>= fun p => Except.ok (some p.1, p.2)) = _
  rw [ht]
  rfl

/-- A reader that wants more than the payload. -/
theorem read_frameBytes_error {r : Reader MessageObject}
    (hr : Deserializer.source.Lacks r ((bigEndian len ++ [id]) ++ payload))
    (hlt : payload.length + 1 < 2 ^ 28) :
    ∃ e, (some <$> r) ⟨frameBytes len id payload, 0⟩ = .error e := by
  have hlen : (frameBytes len id payload).length < 2 ^ 32 := by
    rw [frameBytes, List.length_append, bigEndian_length, List.length_cons]
    omega
  obtain ⟨e, he⟩ := hr ⟨frameBytes len id payload, 0⟩ ⟨hlen, Nat.zero_le _⟩ (frameBytes_eq _ _ _)
  refine ⟨e, ?_⟩
  show (r ⟨frameBytes len id payload, 0⟩ >>= fun p => Except.ok (some p.1, p.2)) = _
  rw [he]
  rfl

theorem exists_threeU32 (h : 12 ≤ payload.length) :
    ∃ i b l rest, payload = (bigEndian i ++ (bigEndian b ++ bigEndian l)) ++ rest := by
  obtain ⟨i, tail, rfl⟩ := exists_bigEndian (show 4 ≤ payload.length by omega)
  rw [List.length_append, bigEndian_length] at h
  obtain ⟨b, tail', rfl⟩ := exists_bigEndian (show 4 ≤ tail.length by omega)
  rw [List.length_append, bigEndian_length] at h
  obtain ⟨l, rest, rfl⟩ := exists_bigEndian (show 4 ≤ tail'.length by omega)
  refine ⟨i, b, l, rest, ?_⟩
  rw [List.append_assoc, List.append_assoc]

/-- A frame that is long enough is read as the message it holds.  The objects of the messages
without fields are made with the length 1. -/
theorem recieveResult_of_readable (hlen : len.toNat = 1 + payload.length)
    (hlt : payload.length + 1 < 2 ^ 28) (h : Readable len.toNat id) :
    ∃ o t, recieveResult id ⟨frameBytes len id payload, 0⟩ = .ok (some o, t) ∧
      o.OfFrame id payload ∧ o.len = if id.toNat ≤ 3 then 1 else len := by
  unfold Readable at h
  cases hk : EMessageId.ofValue id with
  | none =>
    rw [hk] at h
    exact h.elim
  | some k =>
    rw [hk] at h
    obtain rfl := EMessageId.value_of_ofValue hk
    cases k with
    | choke => exact ⟨_, _, rfl, ⟨rfl, rfl, trivial⟩, rfl⟩
    | unchoke => exact ⟨_, _, rfl, ⟨rfl, rfl, trivial⟩, rfl⟩
    | interested => exact ⟨_, _, rfl, ⟨rfl, rfl, trivial⟩, rfl⟩
    | notInterested => exact ⟨_, _, rfl, ⟨rfl, rfl, trivial⟩, rfl⟩
    | haveMsg =>
      have h5 : 5 ≤ len.toNat := h
      obtain ⟨index, rest, hp⟩ := exists_bigEndian (show 4 ≤ payload.length by omega)
      obtain ⟨t, ht⟩ := read_frameBytes (reads_have len _ index) hp hlt
      exact ⟨_, t, ht, ⟨rfl, rfl, ⟨rest, hp.symm⟩⟩, rfl⟩
    | bitField =>
      have hp : payload = payload ++ [] := (List.append_nil payload).symm
      obtain ⟨t, ht⟩ := read_frameBytes (reads_unpackedBitField hlen (by omega) _) hp hlt
      exact ⟨_, t, ht, ⟨rfl, rfl, rfl⟩, rfl⟩
    | request =>
      have h13 : 13 ≤ len.toNat := h
      obtain ⟨i, b, l, rest, hp⟩ := exists_threeU32 (show 12 ≤ payload.length by omega)
      obtain ⟨t, ht⟩ := read_frameBytes (reads_request len _ i b l) hp hlt
      exact ⟨_, t, ht, ⟨rfl, rfl, ⟨rest, hp.symm⟩⟩, rfl⟩
    | piece =>
      have h9 : 9 ≤ len.toNat := h
      obtain ⟨i, tail, hi⟩ := exists_bigEndian (show 4 ≤ payload.length by omega)
      have htail : payload.length = 4 + tail.length := by
        rw [hi, List.length_append, bigEndian_length]
      obtain ⟨b, block, hb⟩ := exists_bigEndian (show 4 ≤ tail.length by omega)
      have hblock : tail.length = 4 + block.length := by
        rw [hb, List.length_append, bigEndian_length]
      have hp : payload = bigEndian i ++ (bigEndian b ++ block) := by rw [hi, hb]
      have hp' : payload = (bigEndian i ++ (bigEndian b ++ block)) ++ [] := by
        rw [List.append_nil, hp]
      have hlen' : len.toNat = 9 + block.length := by omega
      obtain ⟨t, ht⟩ := read_frameBytes (reads_piece hlen' _ i b) hp' hlt
      exact ⟨_, t, ht, ⟨rfl, rfl, hp⟩, rfl⟩
    | cancel =>
      have h13 : 13 ≤ len.toNat := h
      obtain ⟨i, b, l, rest, hp⟩ := exists_threeU32 (show 12 ≤ payload.length by omega)
      obtain ⟨t, ht⟩ := read_frameBytes (reads_cancel len _ i b l) hp hlt
      exact ⟨_, t, ht, ⟨rfl, rfl, ⟨rest, hp.symm⟩⟩, rfl⟩
    | port => exact h.elim
    | handshake => exact h.elim
    | keepAlive => exact h.elim

/-- Any other frame is read as no message, or not at all. -/
theorem recieveResult_of_not_readable (hlen : len.toNat = 1 + payload.length)
    (hlt : payload.length + 1 < 2 ^ 28) (h : ¬ Readable len.toNat id) (o : MessageObject)
    (t : Deserializer) : recieveResult id ⟨frameBytes len id payload, 0⟩ ≠ .ok (some o, t) := by
  have hthrow : ∀ {r : Reader MessageObject},
      Deserializer.source.Lacks r ((bigEndian len ++ [id]) ++ payload) →
      (some <$> r) ⟨frameBytes len id payload, 0⟩ ≠ .ok (some o, t) := by
    intro r hr heq
    obtain ⟨e, he⟩ := read_frameBytes_error hr hlt
    rw [heq] at he
    cases he
  unfold Readable at h
  cases hk : EMessageId.ofValue id with
  | none =>
    rw [recieveResult, hk]
    intro h
    cases h
  | some k =>
    rw [hk] at h
    obtain rfl := EMessageId.value_of_ofValue hk
    cases k with
    | choke => exact absurd trivial h
    | unchoke => exact absurd trivial h
    | interested => exact absurd trivial h
    | notInterested => exact absurd trivial h
    | haveMsg =>
      have h5 : ¬ 5 ≤ len.toNat := h
      exact hthrow (lacks_have len _ (by omega))
    | bitField => exact absurd trivial h
    | request =>
      have h13 : ¬ 13 ≤ len.toNat := h
      exact hthrow (lacks_request len _ (by omega))
    | piece =>
      have h9 : ¬ 9 ≤ len.toNat := h
      exact hthrow (lacks_piece len _ (by omega))
    | cancel =>
      have h13 : ¬ 13 ≤ len.toNat := h
      exact hthrow (lacks_cancel len _ (by omega))
    | port => nofun
    | handshake => nofun
    | keepAlive => nofun

namespace PeerConnection

/-- The handlers of `recieve_message` dispatch at most one message, of which `G` holds, and wait for
the next frame; in particular they neither throw nor dispatch the null pointer. -/
def Survives (infoHash : Hash) (handled : List (Option MessageObject)) (frame : List UInt8)
    (G : MessageObject → Prop) : Prop :=
  ∃ dispatched : Option MessageObject, (∀ o ∈ dispatched, G o) ∧
    intake.run (connected infoHash handled) frame =
      .ok (connected infoHash (handled ++ (dispatched.map some).toList), [])

/-- The two handlers of `recieve_message` on a frame. -/
theorem run_frame (infoHash : Hash) (handled : List (Option MessageObject))
    (hlen : len.toNat = 1 + payload.length) (hlt : 4 + len.toNat < 2 ^ 32) :
    intake.run (connected infoHash handled) (frameBytes len id payload) =
      recieveResult id ⟨frameBytes len id payload, 0⟩ >>= fun p =>
        .ok (connected infoHash (handled ++ [p.1]), []) := by
  have nonzero : len ≠ 0 := by
    rintro rfl
    rw [UInt32.toNat_zero] at hlen
    omega
  let c : PeerConnection := { connected infoHash handled with
    pending := .messageBody len (bigEndian len) nonzero }
  have hfirst : intake.accept (connected infoHash handled) (bigEndian len) = .ok c := by
    refine (messageLengthRead_bigEndian _ len).trans ?_
    rw [dif_pos nonzero]
  have hwants : intake.wants c = some (id :: payload).length := by
    show some len.toNat = _
    rw [hlen, List.length_cons, Nat.add_comm]
  have hroom : ¬ (4 + len).toNat < (frameBytes len id payload).length := by
    rw [frameBytes, List.length_append, bigEndian_length, List.length_cons, UInt32.toNat_add, hlen,
      show (4 : UInt32).toNat = 4 from rfl]
    omega
  have hrest : intake.accept c (id :: payload) =
      recieveResult id ⟨frameBytes len id payload, 0⟩ >>= fun p =>
        .ok (connected infoHash (handled ++ [p.1])) := if_neg hroom
  calc intake.run (connected infoHash handled) (frameBytes len id payload)
      = intake.run c (id :: payload) := Intake.run_append_of_accept _ rfl hfirst
    _ = intake.accept c (id :: payload) >>= fun t => intake.run t [] := by
        rw [Intake.run_of_le hwants le_rfl, List.take_length, List.drop_length]
    _ = _ := by
        rw [hrest, bind_assoc]
        rfl

/-- The handlers survive a frame if the `switch` makes a message of it. -/
theorem survives_iff_recieveResult {infoHash : Hash} {handled : List (Option MessageObject)}
    {G : MessageObject → Prop} (hlen : len.toNat = 1 + payload.length)
    (hlt : payload.length + 1 < 2 ^ 28) :
    Survives infoHash handled (frameBytes len id payload) G ↔
      ∃ o t, recieveResult id ⟨frameBytes len id payload, 0⟩ = .ok (some o, t) ∧ G o := by
  unfold Survives
  rw [run_frame infoHash handled hlen (by omega)]
  constructor
  · rintro ⟨dispatched, hG, h⟩
    obtain ⟨⟨result, t⟩, hresult, hc⟩ := bind_eq_ok.1 h
    have hhandled : handled ++ [result] = handled ++ (dispatched.map some).toList :=
      congrArg (fun c => c.1.handled) (Except.ok.inj hc)
    have hsome := List.append_cancel_left hhandled
    cases dispatched with
    | none => cases hsome
    | some o =>
      cases hsome
      exact ⟨o, t, hresult, hG o rfl⟩
  · rintro ⟨o, t, hresult, hG⟩
    refine ⟨some o, fun o' ho' => ?_, ?_⟩
    · cases ho'
      exact hG
    · rw [hresult]
      rfl

/-- A frame is survived if it is of a kind that is known and long enough for its kind.  The length
of the message, too, is that of the frame unless the message has no fields. -/
theorem survives_iff {infoHash : Hash} {handled : List (Option MessageObject)}
    (hlen : len.toNat = 1 + payload.length) (hlt : payload.length + 1 < 2 ^ 28) :
    (Survives infoHash handled (frameBytes len id payload) (·.OfFrame id payload) ↔
      Readable len.toNat id) ∧
    (Survives infoHash handled (frameBytes len id payload)
        (fun o => o.OfFrame id payload ∧ o.len = len) ↔
      Readable len.toNat id ∧ (id.toNat ≤ 3 → len = 1)) := by
  rw [survives_iff_recieveResult hlen hlt, survives_iff_recieveResult hlen hlt]
  by_cases hr : Readable len.toNat id
  · obtain ⟨o, t, hresult, hof, ho⟩ := recieveResult_of_readable hlen hlt hr
    refine ⟨iff_of_true ⟨o, t, hresult, hof⟩ hr, ?_⟩
    constructor
    · rintro ⟨o', t', hresult', -, hlen'⟩
      refine ⟨hr, fun h3 => ?_⟩
      rw [hresult] at hresult'
      cases hresult'
      rw [← hlen', ho, if_pos h3]
    · rintro ⟨-, h1⟩
      refine ⟨o, t, hresult, hof, ?_⟩
      rw [ho]
      split_ifs with h3
      · exact (h1 h3).symm
      · rfl
  · have hnone := recieveResult_of_not_readable hlen hlt hr
    constructor
    · exact iff_of_false (fun ⟨o, t, h, _⟩ => hnone o t h) hr
    · exact iff_of_false (fun ⟨o, t, h, _⟩ => hnone o t h) fun h => hr h.1

/-- A `HAVE` with two bytes after its index is survived. -/
theorem survives_iff_sample :
    Survives (.replicate 20 7) [] (frameBytes 7 4 [0, 0, 0, 3, 9, 9]) (·.OfFrame 4 [0, 0, 0, 3, 9, 9]) :=
  (survives_iff rfl (by decide)).1.2 (show 5 ≤ 7 by decide)

/-- A `HAVE` without an index, and a frame of a kind that there is not. -/
theorem not_survived :
    ¬ Survives (.replicate 20 7) [] (frameBytes 1 4 []) (·.OfFrame 4 []) ∧
      ¬ Survives (.replicate 20 7) [] (frameBytes 1 20 []) (·.OfFrame 20 []) := by
  constructor
  · rw [survives_iff_recieveResult rfl (by decide)]
    rintro ⟨o, t, h, -⟩
    have hr : ¬ Readable (1 : UInt32).toNat 4 := show ¬ 5 ≤ 1 by decide
    exact recieveResult_of_not_readable rfl (by decide) hr o t h
  · rw [survives_iff_recieveResult rfl (by decide)]
    rintro ⟨o, t, h, -⟩
    have hr : ¬ Readable (1 : UInt32).toNat 20 := not_false
    exact recieveResult_of_not_readable rfl (by decide) hr o t h

end PeerConnection

end FTorrent
