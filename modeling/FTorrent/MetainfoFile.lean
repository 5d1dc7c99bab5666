import FTorrent.Bencoding
import FTorrent.Layout

/-!
# The metainfo file

The constructor of `Metainfo`, and the hash of the info dictionary.  The hash is taken of a new encoding of
the dictionary, after it has been queried with `operator[]`, which adds a key that is missing: an info
dictionary without `length`, as that of a torrent with several files, is not the one that is hashed.  The
hash is that of the bytes in the file exactly if the dictionary has the two integers that are asked for
(`hashesInfo_iff`).
-/

namespace FTorrent

open Lib

/-! ### The constructor -/

/-- What `std::get` throws. -/
def badVariantAccess : Fault := .exception "std::get: wrong index for variant"

def getInteger : Data → Except Fault ℤ
  | .integer value => .ok value
  | _ => .error badVariantAccess

def getString : Data → Except Fault (List UInt8)
  | .string value => .ok value
  | _ => .error badVariantAccess

def getDict : Data → Except Fault Dict
  | .dict entries => .ok entries
  | _ => .error badVariantAccess

/-- A `long long` assigned to a `uint64_t`. -/
def toU64 (value : ℤ) : ℕ := (value % 2 ^ 64).toNat

theorem toU64_lt (value : ℤ) : toU64 value < 2 ^ 64 := by
  have := Int.emod_lt_of_pos value (by decide : (0 : ℤ) < 2 ^ 64)
  unfold toU64
  omega

/-- The hashes in the string `pieces`.  The offset of each is an `int`. -/
def readPieces (piecesString : List UInt8) : Except Fault { pieces : List Hash // pieces.length < 2 ^ 32 } :=
  let numPieces := u32 (piecesString.length / 20)
  if 2 ^ 31 ≤ (numPieces - 1) * 20 then .error .outOfRange
  else
    .ok ⟨(List.range numPieces).map fun i => .ofFn fun j => piecesString.getD (i * 20 + j) 0,
      by simpa using u32_lt (piecesString.length / 20)⟩

/-- `Metainfo`, with the fields that the pieces do not depend on. -/
structure MetainfoFile extends Metainfo where
  announce : List UInt8
  infoHash : Hash

/-- `Metainfo::Metainfo` for the bytes of the file, with the function that `sha1::computeHash` is. -/
def MetainfoFile.ofBytes (computeHash : List UInt8 → Hash) (file : List UInt8) :
    Except Fault MetainfoFile := do
  let decoded ← decode file
  let metainfo ← getDict decoded
  let (metainfo, value) := bracket (ascii "announce") metainfo
  let announce ← getString value
  let (_, value) := bracket (ascii "info") metainfo
  let info ← getDict value
  let (info, value) := bracket (ascii "piece length") info
  let pieceLength ← getInteger value
  let (info, value) := bracket (ascii "pieces") info
  let piecesString ← getString value
  let ⟨pieces, hpieces⟩ ← readPieces piecesString
  let (info, value) := bracket (ascii "length") info
  let length ← getInteger value
  let infoHash := computeHash (encode (.dict info))
  return {
    pieceLength := toU64 pieceLength, pieces, length := toU64 length
    pieceLength_lt := toU64_lt pieceLength, pieces_lt := hpieces, length_lt := toU64_lt length
    announce, infoHash }

@[simp] theorem getInteger_eq_ok {value : Data} {z : ℤ} :
    getInteger value = .ok z ↔ value = .integer z := by
  cases value <;> simp [getInteger]

@[simp] theorem getString_eq_ok {value : Data} {s : List UInt8} :
    getString value = .ok s ↔ value = .string s := by
  cases value <;> simp [getString]

@[simp] theorem getDict_eq_ok {value : Data} {entries : Dict} :
    getDict value = .ok entries ↔ value = .dict entries := by
  cases value <;> simp [getDict]

/-- The info dictionary after it has been asked for its two integers. -/
def queried (info : Dict) : Dict :=
  (bracket (ascii "length") (bracket (ascii "piece length") info).1).1

/-- A value that is not an integer was in the dictionary that was asked for it. -/
theorem lookup_of_bracket {key : List UInt8} {entries : Dict} {value : Data}
    (h : (bracket key entries).2 = value) (hvalue : value ≠ .integer 0) :
    entries.lookup key = some value := by
  rcases hl : entries.lookup key with _ | value'
  · rw [(bracket_of_none hl).2] at h
    exact absurd h.symm hvalue
  · rw [bracket_of_some hl] at h
    rw [← h]

/-- A file that is accepted is a dictionary with an info dictionary, and the hash is that of the queried
one, whatever function computes it. -/
theorem MetainfoFile.ofBytes_eq_ok {computeHash : List UInt8 → Hash} {file : List UInt8}
    {m : MetainfoFile} (h : MetainfoFile.ofBytes computeHash file = .ok m) :
    ∃ entries info, decode file = .ok (.dict entries) ∧
      entries.lookup (ascii "info") = some (.dict info) ∧
      ∀ computeHash', ∃ m', MetainfoFile.ofBytes computeHash' file = .ok m' ∧
        m'.infoHash = computeHash' (encode (.dict (queried info))) := by
  obtain ⟨decoded, hdecoded, h⟩ := bind_eq_ok.1 h
  obtain ⟨metainfo, hmetainfo, h⟩ := bind_eq_ok.1 h
  obtain ⟨announce, hannounce, h⟩ := bind_eq_ok.1 h
  obtain ⟨info, hinfo, h⟩ := bind_eq_ok.1 h
  obtain ⟨pieceLength, hpieceLength, h⟩ := bind_eq_ok.1 h
  obtain ⟨piecesString, hpiecesString, h⟩ := bind_eq_ok.1 h
  obtain ⟨pieces, hpieces, h⟩ := bind_eq_ok.1 h
  obtain ⟨length, hlength, -⟩ := bind_eq_ok.1 h
  refine ⟨metainfo, info, ?_, ?_, fun computeHash' => ⟨_, bind_eq_ok.2 ⟨decoded, hdecoded,
    bind_eq_ok.2 ⟨metainfo, hmetainfo, bind_eq_ok.2 ⟨announce, hannounce,
    bind_eq_ok.2 ⟨info, hinfo, bind_eq_ok.2 ⟨pieceLength, hpieceLength,
    bind_eq_ok.2 ⟨piecesString, hpiecesString, bind_eq_ok.2 ⟨pieces, hpieces,
    bind_eq_ok.2 ⟨length, hlength, rfl⟩⟩⟩⟩⟩⟩⟩⟩, ?_⟩⟩
  · rw [hdecoded, getDict_eq_ok.1 hmetainfo]
  · have hlookup := lookup_of_bracket (getString_eq_ok.1 hannounce) (by simp)
    have hvalue : (bracket (ascii "info") (bracket (ascii "announce") metainfo).1).2 = .dict info :=
      getDict_eq_ok.1 hinfo
    rw [bracket_of_some hlookup] at hvalue
    exact lookup_of_bracket hvalue (by simp)
  · have hvalue : (bracket (ascii "pieces") (bracket (ascii "piece length") info).1).2 =
        .string piecesString := getString_eq_ok.1 hpiecesString
    have hlookup := lookup_of_bracket hvalue (by simp)
    change computeHash' (encode (.dict (bracket (ascii "length") (bracket (ascii "pieces")
      (bracket (ascii "piece length") info).1).1).1)) = _
    rw [bracket_of_some hlookup]
    rfl

/-! ### What the queries add -/

/-- The part of an encoding that comes from an entry. -/
def encodeEntry (x : List UInt8 × Data) : List UInt8 := encodeString x.1 ++ encode x.2

theorem encodeEntries_eq (entries : Dict) : encodeEntries entries = entries.flatMap encodeEntry := by
  induction entries with
  | nil => rfl
  | cons x entries ih => rw [encodeEntries, ih, List.flatMap_cons, encodeEntry]

theorem length_encodeEntries (entries : Dict) :
    (encodeEntries entries).length = (entries.map fun x => (encodeEntry x).length).sum := by
  rw [encodeEntries_eq, List.length_flatMap]

/-- A query makes the encoding longer if the key is missing. -/
theorem length_bracket {key : List UInt8} {entries : Dict} (h : entries.lookup key = none) :
    (encodeEntries entries).length < (encodeEntries (bracket key entries).1).length := by
  have hperm := (bracket_of_none h).1.map fun x => (encodeEntry x).length
  have hpos : 0 < (encodeEntry (key, default)).length := by
    rw [encodeEntry, encodeString, List.length_append, List.length_append, List.length_cons]
    omega
  rw [length_encodeEntries, length_encodeEntries, hperm.sum_eq, List.map_cons, List.sum_cons]
  omega

theorem length_bracket_le (key : List UInt8) (entries : Dict) :
    (encodeEntries entries).length ≤ (encodeEntries (bracket key entries).1).length := by
  rcases h : entries.lookup key with _ | value
  · exact (length_bracket h).le
  · rw [bracket_of_some h]

/-- The integers that the constructor asks for are in the dictionary. -/
def HasIntegers (info : Dict) : Prop :=
  (info.lookup (ascii "piece length")).isSome = true ∧ (info.lookup (ascii "length")).isSome = true

theorem queried_eq {info : Dict} (h : HasIntegers info) : queried info = info := by
  obtain ⟨pieceLength, hpieceLength⟩ := Option.isSome_iff_exists.1 h.1
  obtain ⟨length, hlength⟩ := Option.isSome_iff_exists.1 h.2
  rw [queried, bracket_of_some hpieceLength, bracket_of_some hlength]

/-- Where one is missing, the queried dictionary has another encoding. -/
theorem encode_queried_ne {info : Dict} (h : ¬ HasIntegers info) :
    encode (.dict (queried info)) ≠ encode (.dict info) := by
  have hlt : (encodeEntries info).length < (encodeEntries (queried info)).length := by
    rcases hpieceLength : info.lookup (ascii "piece length") with _ | pieceLength
    · exact (length_bracket hpieceLength).trans_le (length_bracket_le _ _)
    · rcases hlength : info.lookup (ascii "length") with _ | length
      · rw [queried, bracket_of_some hpieceLength]
        exact length_bracket hlength
      · exact absurd ⟨by rw [hpieceLength]; rfl, by rw [hlength]; rfl⟩ h
  intro heq
  rw [encode, encode] at heq
  have hlen := congrArg List.length heq
  simp only [List.length_append, List.length_cons] at hlen
  omega

/-! ### The bytes of the info dictionary -/

/-- The file is the canonical bencoding of some value. -/
def Canonical (file : List UInt8) : Prop := ∃ value, Bencodes value file

/-- In the file, a canonical dictionary, `bytes` encode the value of the key `info`. -/
inductive InfoIn : List UInt8 → Data → List UInt8 → Prop
  | mk {pre post : Dict} {info : Data} {preBytes keyBytes bytes postBytes : List UInt8}
    (hpre : BencodesEntries pre preBytes) (hkey : BencodesString (ascii "info") keyBytes)
    (h : Bencodes info bytes) (hpost : BencodesEntries post postBytes)
    (hkeys : SortedKeys (pre ++ (ascii "info", info) :: post)) :
    InfoIn (token 'd' :: (preBytes ++ (keyBytes ++ bytes ++ postBytes)) ++ [token 'e']) info bytes

theorem BencodesEntries.append {pre entries : Dict} {preBytes bytes : List UInt8}
    (hpre : BencodesEntries pre preBytes) (h : BencodesEntries entries bytes) :
    BencodesEntries (pre ++ entries) (preBytes ++ bytes) := by
  cases hpre with
  | nil => exact h
  | cons hkey hvalue hs =>
    rw [List.append_assoc]
    exact .cons hkey hvalue (hs.append h)

theorem BencodesEntries.exists_append {pre entries : Dict} {bytes : List UInt8}
    (h : BencodesEntries (pre ++ entries) bytes) : ∃ preBytes bytes',
      BencodesEntries pre preBytes ∧ BencodesEntries entries bytes' ∧ bytes = preBytes ++ bytes' := by
  induction pre generalizing bytes with
  | nil => exact ⟨[], bytes, .nil, h, rfl⟩
  | cons x pre ih =>
    cases h with
    | cons hkey hvalue hs =>
      obtain ⟨preBytes, bytes', hpre, h, rfl⟩ := ih hs
      exact ⟨_, bytes', .cons hkey hvalue hpre, h, (List.append_assoc _ _ _).symm⟩

/-- What is decoded from the file is a dictionary with that value. -/
theorem InfoIn.lookup {file bytes : List UInt8} {info value : Data} (h : InfoIn file info bytes)
    (hdecode : decode file = .ok value) :
    ∃ entries, value = .dict entries ∧ entries.lookup (ascii "info") = some info := by
  cases h with
  | mk hpre hkey h hpost hkeys =>
    have hfile := Bencodes.dict hkeys (hpre.append (.cons hkey h hpost))
    exact ⟨_, hfile.decode_eq hdecode, lookup_append hkeys⟩

theorem InfoIn.encode_eq {file bytes : List UInt8} {info : Data} (h : InfoIn file info bytes) :
    encode info = bytes := by
  cases h with
  | mk _ _ h _ _ => exact h.encode_eq

/-- The bytes are determined by the file. -/
theorem InfoIn.bytes_eq {file bytes bytes' : List UInt8} {info info' value : Data}
    (h : InfoIn file info bytes) (h' : InfoIn file info' bytes') (hdecode : decode file = .ok value) :
    info = info' ∧ bytes = bytes' := by
  obtain ⟨entries, rfl, hlookup⟩ := h.lookup hdecode
  obtain ⟨entries', heq, hlookup'⟩ := h'.lookup hdecode
  cases heq
  obtain rfl : info = info' := Option.some.inj (hlookup.symm.trans hlookup')
  exact ⟨rfl, h.encode_eq.symm.trans h'.encode_eq⟩

/-- Where the decoder finds a value of the key `info` in a canonical file, its encoding is in the file. -/
theorem exists_infoIn {file : List UInt8} {value info : Data} {entries : Dict}
    (h : Bencodes value file) (hdecode : decode file = .ok (.dict entries))
    (hinfo : entries.lookup (ascii "info") = some info) : InfoIn file info (encode info) := by
  obtain rfl := h.decode_eq hdecode
  obtain ⟨pre, post, rfl, -⟩ := List.lookup_eq_some_iff.1 hinfo
  cases h with
  | dict hkeys h =>
    obtain ⟨preBytes, bytes, hpre, hrest, rfl⟩ := h.exists_append
    cases hrest with
    | cons hkey hinfo hpost =>
      rw [hinfo.encode_eq]
      exact .mk hpre hkey hinfo hpost hkeys

/-! ### The hash -/

/-- The hash is that of the bytes in the file, whatever function computes it. -/
def HashesInfo (file : List UInt8) : Prop :=
  ∀ (computeHash : List UInt8 → Hash) (m : MetainfoFile),
    MetainfoFile.ofBytes computeHash file = .ok m →
      ∃ info bytes, InfoIn file info bytes ∧ m.infoHash = computeHash bytes

/-- The info dictionary in the file has both integers. -/
def InfoHasIntegers (file : List UInt8) : Prop :=
  ∃ info bytes, InfoIn file (.dict info) bytes ∧ HasIntegers info

theorem hashesInfo_iff_hasIntegers {file bytes : List UInt8} {info : Dict}
    (hinfo : InfoIn file (.dict info) bytes) {computeHash : List UInt8 → Hash} {m : MetainfoFile}
    (hm : MetainfoFile.ofBytes computeHash file = .ok m) : HashesInfo file ↔ HasIntegers info := by
  obtain ⟨entries, info₁, hdecode, hlookup, hhash⟩ := MetainfoFile.ofBytes_eq_ok hm
  obtain ⟨entries', heq, hlookup'⟩ := hinfo.lookup hdecode
  cases heq
  cases hlookup.symm.trans hlookup'
  constructor
  · intro h
    by_contra hmissing
    -- a hash that tells the two encodings apart
    let computeHash' : List UInt8 → Hash :=
      fun bytes => .replicate 20 (if bytes = encode (.dict info) then 0 else 1)
    obtain ⟨m', hm', hqueried⟩ := hhash computeHash'
    obtain ⟨info', bytes', hinfo', hbytes⟩ := h computeHash' m' hm'
    obtain ⟨-, rfl⟩ := hinfo.bytes_eq hinfo' hdecode
    rw [hqueried, ← hinfo.encode_eq] at hbytes
    simp only [computeHash', if_neg (encode_queried_ne hmissing), if_true] at hbytes
    exact absurd hbytes (by decide)
  · intro hintegers computeHash' m' hm'
    obtain ⟨m₁, hm₁, hqueried⟩ := hhash computeHash'
    obtain rfl : m₁ = m' := Except.ok.inj (hm₁.symm.trans hm')
    exact ⟨_, _, hinfo, by rw [hqueried, queried_eq hintegers, hinfo.encode_eq]⟩

/-- In a canonical file that is accepted, the hash is that of the bytes in the file exactly if the info
dictionary has both integers. -/
theorem hashesInfo_iff {file : List UInt8} (hfile : Canonical file)
    {computeHash : List UInt8 → Hash} {m : MetainfoFile}
    (hm : MetainfoFile.ofBytes computeHash file = .ok m) : HashesInfo file ↔ InfoHasIntegers file := by
  obtain ⟨value, hvalue⟩ := hfile
  obtain ⟨entries, info, hdecode, hlookup, -⟩ := MetainfoFile.ofBytes_eq_ok hm
  have hinfo := exists_infoIn hvalue hdecode hlookup
  rw [hashesInfo_iff_hasIntegers hinfo hm]
  constructor
  · exact fun h => ⟨info, _, hinfo, h⟩
  · rintro ⟨info', bytes, hinfo', h⟩
    cases (hinfo.bytes_eq hinfo' hdecode).1
    exact h

/-- A torrent of one file of one byte. -/
def singleFile : List UInt8 :=
  ascii "d8:announce0:4:infod6:lengthi1e4:name1:a12:piece lengthi1e6:pieces0:ee"

def singleFileData : Data :=
  .dict [(ascii "announce", .string []), (ascii "info", .dict [(ascii "length", .integer 1),
    (ascii "name", .string (ascii "a")), (ascii "piece length", .integer 1),
    (ascii "pieces", .string [])])]

theorem bencodes_singleFile : Bencodes singleFileData singleFile := by
  have hencode : encode singleFileData = singleFile := by decide +kernel
  rw [← hencode]
  exact bencodes_encode ⟨by decide, trivial, ⟨by decide, trivial, trivial, trivial, trivial, trivial⟩,
    trivial⟩

theorem exists_eq_ok {α : Type} {x : Except Fault α} (h : x.toOption.isSome = true) :
    ∃ a, x = .ok a := by
  cases x with
  | error e => cases h
  | ok a => exact ⟨a, rfl⟩

/-- A hash for the evaluation of examples. -/
def zeroHash : List UInt8 → Hash := fun _ => .replicate 20 0

theorem hashesInfo_singleFile : HashesInfo singleFile := by
  obtain ⟨m, hm⟩ : ∃ m, MetainfoFile.ofBytes zeroHash singleFile = .ok m :=
    exists_eq_ok (by decide +kernel)
  obtain ⟨entries, info, hdecode, hlookup, -⟩ := MetainfoFile.ofBytes_eq_ok hm
  cases bencodes_singleFile.decode_eq hdecode
  exact (hashesInfo_iff ⟨_, bencodes_singleFile⟩ hm).2
    ⟨_, _, exists_infoIn bencodes_singleFile hdecode rfl, by decide, by decide⟩

/-- A torrent of several files, here one of one byte: the length is in the list of files. -/
def severalFiles : List UInt8 :=
  ascii "d8:announce0:4:infod5:filesld6:lengthi1e4:pathl1:aeee4:name1:b12:piece lengthi1e6:pieces0:ee"

def severalFilesData : Data :=
  .dict [(ascii "announce", .string []), (ascii "info", .dict [
    (ascii "files", .list [.dict [(ascii "length", .integer 1),
      (ascii "path", .list [.string (ascii "a")])]]),
    (ascii "name", .string (ascii "b")), (ascii "piece length", .integer 1),
    (ascii "pieces", .string [])])]

theorem bencodes_severalFiles : Bencodes severalFilesData severalFiles := by
  have hencode : encode severalFilesData = severalFiles := by decide +kernel
  rw [← hencode]
  exact bencodes_encode ⟨by decide, trivial, ⟨by decide,
    ⟨⟨⟨by decide, trivial, ⟨trivial, trivial⟩, trivial⟩, trivial⟩, trivial, trivial, trivial, trivial⟩⟩,
    trivial⟩

theorem not_hashesInfo_severalFiles :
    ¬ ∀ (file : List UInt8), Canonical file → ∀ (computeHash : List UInt8 → Hash) (m : MetainfoFile),
      MetainfoFile.ofBytes computeHash file = .ok m → HashesInfo file := by
  intro h
  obtain ⟨m, hm⟩ : ∃ m, MetainfoFile.ofBytes zeroHash severalFiles = .ok m :=
    exists_eq_ok (by decide +kernel)
  have hhashes := h _ ⟨_, bencodes_severalFiles⟩ _ _ hm
  obtain ⟨entries, info, hdecode, hlookup, -⟩ := MetainfoFile.ofBytes_eq_ok hm
  cases bencodes_severalFiles.decode_eq hdecode
  have hinfo := exists_infoIn bencodes_severalFiles hdecode rfl
  exact absurd ((hashesInfo_iff_hasIntegers hinfo hm).1 hhashes).2 (by decide)

end FTorrent
