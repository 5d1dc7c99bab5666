import FTorrent.Decoding
import FTorrent.MetainfoFile

/-!
# The files that are accepted

The constructor of `Metainfo` accepts a file exactly if a dictionary is decoded from it that has the
strings, the dictionary and the numbers the constructor asks for, where a number can be missing
(`ofBytes_accepts_iff`).  The file that is written for a torrent of one file is read back
(`readBack_singleFile`).
-/

namespace FTorrent

open Lib

/-! ### What the queries find -/

/-- The integer that a query finds: one that is missing is added as zero. -/
def integerAt (key : List UInt8) (entries : Dict) : Option ℤ :=
  match entries.lookup key with
  | none => some 0
  | some (.integer z) => some z
  | some _ => none

theorem getInteger_bracket {key : List UInt8} {entries : Dict} {z : ℤ} :
    getInteger (bracket key entries).2 = .ok z ↔ integerAt key entries = some z := by
  rw [getInteger_eq_ok]
  unfold integerAt
  rcases h : entries.lookup key with _ | value
  · rw [(bracket_of_none h).2]
    exact ⟨fun h => (by cases h; rfl), fun h => (by cases h; rfl)⟩
  · rw [bracket_of_some h]
    cases value <;> simp

theorem getString_bracket {key s : List UInt8} {entries : Dict} :
    getString (bracket key entries).2 = .ok s ↔ entries.lookup key = some (.string s) := by
  rw [getString_eq_ok]
  exact ⟨fun h => lookup_of_bracket h (by simp), fun h => by rw [bracket_of_some h]⟩

theorem getDict_bracket {key : List UInt8} {entries dict : Dict} :
    getDict (bracket key entries).2 = .ok dict ↔ entries.lookup key = some (.dict dict) := by
  rw [getDict_eq_ok]
  exact ⟨fun h => lookup_of_bracket h (by simp), fun h => by rw [bracket_of_some h]⟩

/-- A query leaves the values of the other keys. -/
theorem lookup_bracket_ne {key key' : List UInt8} (hne : key' ≠ key) (entries : Dict) :
    (bracket key entries).1.lookup key' = entries.lookup key' := by
  rcases h : entries.lookup key with _ | value
  · have hnew : ∀ x ∈ entries, key ≠ x.1 := fun x hx => by
      simpa using List.lookup_eq_none_iff.1 h x hx
    obtain ⟨added, hadded⟩ := exists_emplace hnew (default : Data)
    rw [bracket, h, hadded]
    exact lookup_emplace_ne hne hadded
  · rw [bracket_of_some h]

theorem integerAt_bracket_ne {key key' : List UInt8} (hne : key' ≠ key) (entries : Dict) :
    integerAt key' (bracket key entries).1 = integerAt key' entries := by
  rw [integerAt, lookup_bracket_ne hne, integerAt]

/-! ### The hashes -/

/-- The hash at a position in the string. -/
def hashAt (piecesString : List UInt8) (i : ℕ) : Hash := .ofFn fun j => piecesString.getD (i * 20 + j) 0

/-- The number of hashes in the string, as it is stored. -/
def numPieces (piecesString : List UInt8) : ℕ := u32 (piecesString.length / 20)

theorem readPieces_eq_ok {piecesString : List UInt8}
    {pieces : { pieces : List Hash // pieces.length < 2 ^ 32 }} :
    readPieces piecesString = .ok pieces ↔ (numPieces piecesString - 1) * 20 < 2 ^ 31 ∧
      pieces.1 = (List.range (numPieces piecesString)).map (hashAt piecesString) := by
  unfold readPieces
  dsimp only
  split_ifs with hsize
  · simp only [false_iff, not_and]
    exact fun hlt => absurd hlt (not_lt.2 hsize)
  · rw [Except.ok.injEq, ← Subtype.val_inj]
    exact ⟨fun h => ⟨not_le.1 hsize, h.symm⟩, fun h => h.2.symm⟩

/-! ### The constructor -/

/-- What the constructor takes from the dictionary of a file. -/
structure Described (computeHash : List UInt8 → Hash) (entries info : Dict) (piecesString : List UInt8)
    (pieceLength length : ℤ) (m : MetainfoFile) : Prop where
  announce_lookup : entries.lookup (ascii "announce") = some (.string m.announce)
  info_lookup : entries.lookup (ascii "info") = some (.dict info)
  pieceLength_at : integerAt (ascii "piece length") info = some pieceLength
  pieces_lookup : info.lookup (ascii "pieces") = some (.string piecesString)
  length_at : integerAt (ascii "length") info = some length
  count_lt : (numPieces piecesString - 1) * 20 < 2 ^ 31
  pieceLength_eq : m.pieceLength = toU64 pieceLength
  length_eq : m.length = toU64 length
  pieces_eq : m.pieces = (List.range (numPieces piecesString)).map (hashAt piecesString)
  infoHash_eq : m.infoHash = computeHash (encode (.dict (queried info)))

/-- The query for the hashes changes nothing, as they are there. -/
theorem bracket_pieces {info : Dict} {piecesString : List UInt8}
    (h : info.lookup (ascii "pieces") = some (.string piecesString)) :
    bracket (ascii "pieces") (bracket (ascii "piece length") info).1 =
      ((bracket (ascii "piece length") info).1, .string piecesString) :=
  bracket_of_some (by rw [lookup_bracket_ne (by decide), h])

/-- The constructor as a sequence of queries. -/
theorem ofBytes_eq (computeHash : List UInt8 → Hash) (file : List UInt8) :
    MetainfoFile.ofBytes computeHash file = (do
      let decoded ← decode file
      let entries ← getDict decoded
      let announce ← getString (bracket (ascii "announce") entries).2
      let info ← getDict (bracket (ascii "info") (bracket (ascii "announce") entries).1).2
      let pieceLength ← getInteger (bracket (ascii "piece length") info).2
      let queriedPieces := bracket (ascii "pieces") (bracket (ascii "piece length") info).1
      let piecesString ← getString queriedPieces.2
      let pieces ← readPieces piecesString
      let length ← getInteger (bracket (ascii "length") queriedPieces.1).2
      return {
        pieceLength := toU64 pieceLength, pieces := pieces.1, length := toU64 length
        pieceLength_lt := toU64_lt pieceLength, pieces_lt := pieces.2, length_lt := toU64_lt length
        announce
        infoHash := computeHash (encode (.dict (bracket (ascii "length") queriedPieces.1).1)) }) :=
  rfl

theorem described_of_ofBytes {computeHash : List UInt8 → Hash} {file : List UInt8} {m : MetainfoFile}
    (h : MetainfoFile.ofBytes computeHash file = .ok m) :
    ∃ entries info piecesString pieceLength length, decode file = .ok (.dict entries) ∧
      Described computeHash entries info piecesString pieceLength length m := by
  rw [ofBytes_eq] at h
  obtain ⟨decoded, hdecoded, h⟩ := bind_eq_ok.1 h
  obtain ⟨entries, hentries, h⟩ := bind_eq_ok.1 h
  obtain ⟨announce, hannounce, h⟩ := bind_eq_ok.1 h
  obtain ⟨info, hinfo, h⟩ := bind_eq_ok.1 h
  obtain ⟨pieceLength, hpieceLength, h⟩ := bind_eq_ok.1 h
  obtain ⟨piecesString, hpiecesString, h⟩ := bind_eq_ok.1 h
  obtain ⟨pieces, hpieces, h⟩ := bind_eq_ok.1 h
  obtain ⟨length, hlength, h⟩ := bind_eq_ok.1 h
  cases h
  have hinfo' := getDict_bracket.1 hinfo
  rw [lookup_bracket_ne (by decide)] at hinfo'
  have hpieces' := getString_bracket.1 hpiecesString
  rw [lookup_bracket_ne (by decide)] at hpieces'
  obtain ⟨hcount, heq⟩ := readPieces_eq_ok.1 hpieces
  have hlength' := getInteger_bracket.1 hlength
  rw [integerAt_bracket_ne (by decide), integerAt_bracket_ne (by decide)] at hlength'
  refine ⟨entries, info, piecesString, pieceLength, length, by rw [hdecoded, getDict_eq_ok.1 hentries],
    getString_bracket.1 hannounce, hinfo', getInteger_bracket.1 hpieceLength, hpieces', hlength', hcount,
    rfl, rfl, heq, ?_⟩
  dsimp only
  rw [bracket_pieces hpieces']
  rfl

theorem Described.ofBytes {computeHash : List UInt8 → Hash} {file piecesString : List UInt8}
    {entries info : Dict} {pieceLength length : ℤ} {m : MetainfoFile}
    (hd : Described computeHash entries info piecesString pieceLength length m)
    (hdecode : decode file = .ok (.dict entries)) : MetainfoFile.ofBytes computeHash file = .ok m := by
  have hinfo : getDict (bracket (ascii "info") (bracket (ascii "announce") entries).1).2 = .ok info :=
    getDict_bracket.2 (by rw [lookup_bracket_ne (by decide), hd.info_lookup])
  have hlength : integerAt (ascii "length") (bracket (ascii "piece length") info).1 = some length := by
    rw [integerAt_bracket_ne (by decide), hd.length_at]
  have hpieces : readPieces piecesString = .ok ⟨m.pieces, m.pieces_lt⟩ :=
    readPieces_eq_ok.2 ⟨hd.count_lt, hd.pieces_eq⟩
  rw [ofBytes_eq]
  refine bind_eq_ok.2 ⟨_, hdecode, bind_eq_ok.2 ⟨entries, rfl,
    bind_eq_ok.2 ⟨_, getString_bracket.2 hd.announce_lookup, bind_eq_ok.2 ⟨info, hinfo,
    bind_eq_ok.2 ⟨_, getInteger_bracket.2 hd.pieceLength_at, ?_⟩⟩⟩⟩⟩
  rw [bracket_pieces hd.pieces_lookup]
  refine bind_eq_ok.2 ⟨piecesString, rfl, bind_eq_ok.2 ⟨_, hpieces,
    bind_eq_ok.2 ⟨_, getInteger_bracket.2 hlength, ?_⟩⟩⟩
  obtain ⟨⟨pieceLength', pieces, length', _, _, _⟩, announce, infoHash⟩ := m
  obtain ⟨-, -, -, -, -, -, rfl, rfl, -, rfl⟩ := hd
  rfl

/-- The constructor accepts a file exactly if what it asks for is in the dictionary that is decoded from
it. -/
theorem ofBytes_accepts_iff {computeHash : List UInt8 → Hash} {file : List UInt8} {m : MetainfoFile} :
    MetainfoFile.ofBytes computeHash file = .ok m ↔
      ∃ entries info piecesString pieceLength length, decode file = .ok (.dict entries) ∧
        Described computeHash entries info piecesString pieceLength length m := by
  constructor
  · exact described_of_ofBytes
  · rintro ⟨entries, info, piecesString, pieceLength, length, hdecode, hd⟩
    exact hd.ofBytes hdecode

/-! ### A torrent of one file -/

/-- The info dictionary of a torrent of one file. -/
def infoOf (name : List UInt8) (pieceLength length : ℕ) (hashes : List Hash) : Dict :=
  [(ascii "length", .integer length), (ascii "name", .string name),
    (ascii "piece length", .integer pieceLength),
    (ascii "pieces", .string (hashes.flatMap Vector.toList))]

/-- The dictionary of its file. -/
def fileOf (announce : List UInt8) (info : Dict) : Dict :=
  [(ascii "announce", .string announce), (ascii "info", .dict info)]

theorem length_hashes (hashes : List Hash) : (hashes.flatMap Vector.toList).length = hashes.length * 20 := by
  induction hashes with
  | nil => rfl
  | cons hash hashes ih =>
    rw [List.flatMap_cons, List.length_append, ih, Vector.length_toList, List.length_cons, Nat.succ_mul,
      Nat.add_comm]

theorem getElem?_hashes {hashes : List Hash} {i j : ℕ} {hash : Hash} (h : hashes[i]? = some hash)
    (hj : j < 20) : (hashes.flatMap Vector.toList)[i * 20 + j]? = some hash[j] := by
  induction hashes generalizing i with
  | nil => simp at h
  | cons first hashes ih =>
    rw [List.flatMap_cons]
    cases i with
    | zero =>
      obtain rfl : first = hash := by simpa using h
      rw [List.getElem?_append_left (by simpa using hj)]
      simp [hj]
    | succ i =>
      rw [List.getElem?_append_right (by simp; omega), Vector.length_toList,
        show (i + 1) * 20 + j - 20 = i * 20 + j by omega]
      exact ih (by simpa using h)

/-- The string of the hashes has each in its place. -/
theorem hashAt_flatMap {hashes : List Hash} {i : ℕ} {hash : Hash} (h : hashes[i]? = some hash) :
    hashAt (hashes.flatMap Vector.toList) i = hash := by
  refine Vector.ext fun j hj => ?_
  rw [hashAt, Vector.getElem_ofFn, List.getD_eq_getElem?_getD, getElem?_hashes h hj, Option.getD_some]

theorem map_hashAt (hashes : List Hash) :
    (List.range hashes.length).map (hashAt (hashes.flatMap Vector.toList)) = hashes := by
  refine List.ext_getElem? fun i => ?_
  rw [List.getElem?_map]
  rcases h : hashes[i]? with _ | hash
  · rw [List.getElem?_eq_none_iff] at h
    rw [List.getElem?_eq_none (by simpa using h)]
    rfl
  · rw [List.getElem?_range (List.getElem?_eq_some_iff.1 h).1, Option.map_some, hashAt_flatMap h]

theorem sortedKeys_of_keys {entries : Dict} (h : (entries.map Prod.fst).Pairwise (· < ·)) :
    SortedKeys entries :=
  List.pairwise_map.1 h

/-- What is written for a torrent of one file is read back: the tracker, the lengths and the hashes, and
the hash of the info dictionary is that of its bytes in the file. -/
theorem readBack_singleFile (computeHash : List UInt8 → Hash) (announce name : List UInt8)
    (pieceLength length : ℕ) (hashes : List Hash) (hannounce : announce.length < 2 ^ 64)
    (hname : name.length < 2 ^ 64) (hpieceLength : pieceLength < 2 ^ 63) (hlength : length < 2 ^ 63)
    (hcount : (hashes.length - 1) * 20 < 2 ^ 31) (rest : List UInt8) :
    ∃ m, MetainfoFile.ofBytes computeHash
        (encode (.dict (fileOf announce (infoOf name pieceLength length hashes))) ++ rest) = .ok m ∧
      m.announce = announce ∧ m.pieceLength = pieceLength ∧ m.length = length ∧ m.pieces = hashes ∧
      m.infoHash = computeHash (encode (.dict (infoOf name pieceLength length hashes))) := by
  have hnum : numPieces (hashes.flatMap Vector.toList) = hashes.length := by
    rw [numPieces, length_hashes, Nat.mul_div_cancel _ (by decide), u32_of_lt (by omega)]
  have htoU64 : ∀ n < 2 ^ 63, toU64 ((n : ℕ) : ℤ) = n := by
    intro n hn
    unfold toU64
    omega
  have hascending : Ascending (.dict (fileOf announce (infoOf name pieceLength length hashes))) :=
    ⟨sortedKeys_of_keys (show [ascii "announce", ascii "info"].Pairwise (· < ·) by decide), trivial,
      ⟨sortedKeys_of_keys (show [ascii "length", ascii "name", ascii "piece length",
        ascii "pieces"].Pairwise (· < ·) by decide), trivial, trivial, trivial, trivial, trivial⟩, trivial⟩
  have hfits : Fits (.dict (fileOf announce (infoOf name pieceLength length hashes))) := by
    have hhashes := length_hashes hashes
    simp only [fileOf, infoOf, Fits, FitsEntries, longLong, sizeT]
    refine ⟨by decide, by omega, by decide, ⟨by decide, by omega, by decide, by omega, by decide, by omega,
      by decide, by omega, trivial⟩, trivial⟩
  let m : MetainfoFile := {
    pieceLength, pieces := hashes, length
    pieceLength_lt := by omega, pieces_lt := by omega, length_lt := by omega
    announce
    infoHash := computeHash (encode (.dict (infoOf name pieceLength length hashes))) }
  have hd : Described computeHash (fileOf announce (infoOf name pieceLength length hashes))
      (infoOf name pieceLength length hashes) (hashes.flatMap Vector.toList) pieceLength length m := by
    refine ⟨rfl, rfl, rfl, rfl, rfl, ?_, ?_, ?_, ?_, ?_⟩
    · rwa [hnum]
    · exact (htoU64 pieceLength hpieceLength).symm
    · exact (htoU64 length hlength).symm
    · rw [hnum, map_hashAt]
    · rw [queried_eq ⟨rfl, rfl⟩]
  exact ⟨m, hd.ofBytes ((reads_encode hascending hfits).decode_append rest), rfl, rfl, rfl, rfl, rfl⟩

/-- A torrent of one file of two pieces, with a tracker. -/
def twoPieceFile : List UInt8 :=
  ascii "d8:announce7:udp://t4:infod6:lengthi20000e4:name1:a12:piece lengthi16384e6:pieces40:" ++
    ascii "AAAAAAAAAAAAAAAAAAAABBBBBBBBBBBBBBBBBBBBee"

theorem readBack_singleFile_sample :
    ∃ m, MetainfoFile.ofBytes zeroHash (twoPieceFile ++ ascii "!") = .ok m ∧
      m.announce = ascii "udp://t" ∧ m.pieceLength = 16384 ∧ m.length = 20000 ∧
      m.pieces = [Vector.replicate 20 65, Vector.replicate 20 66] := by
  have hencode : encode (.dict (fileOf (ascii "udp://t") (infoOf (ascii "a") 16384 20000
      [Vector.replicate 20 65, Vector.replicate 20 66]))) = twoPieceFile := by decide +kernel
  obtain ⟨m, hm, hannounce, hpieceLength, hlength, hpieces, -⟩ := readBack_singleFile zeroHash
    (ascii "udp://t") (ascii "a") 16384 20000 [Vector.replicate 20 65, Vector.replicate 20 66]
    (by decide) (by decide) (by decide) (by decide) (by decide) (ascii "!")
  rw [hencode] at hm
  exact ⟨m, hm, hannounce, hpieceLength, hlength, hpieces⟩

end FTorrent
