import IndexNotation.Format.ArrayFile

/-!
# Archives

Several array files in one file. Every member has a record in front of its bytes, and a directory of
all members stands at the end. Members are stored as they are.
-/

namespace IndexNotation.Archive

/-! ## Checksums -/

/-- One step of the remainder. -/
def shift (c : UInt32) : UInt32 :=
  if c &&& 1 == 1 then (c >>> 1) ^^^ 0xedb88320 else c >>> 1

/-- The remainder after one more byte. -/
def feed (c : UInt32) (b : UInt8) : UInt32 :=
  (List.range 8).foldl (fun c _ => shift c) (c ^^^ b.toUInt32)

/-- The checksum of bytes. -/
def checksum (bs : List UInt8) : UInt32 :=
  (bs.foldl feed 0xffffffff) ^^^ 0xffffffff

/-! ## Writing -/

/-- A member: its name and its bytes. -/
structure Member where
  name : List UInt8
  bytes : List UInt8

/-- Numbers with their widths in bytes. -/
def fields (fs : List (Nat × Nat)) : List UInt8 :=
  fs.flatMap fun f => Bytes.littleEndian f.1 f.2

/-- The marks in front of a member, of an entry of the directory, and of the end of it. -/
def memberMark : Nat := 0x04034b50
def entryMark : Nat := 0x02014b50
def endMark : Nat := 0x06054b50

/-- The date of a member, which is the first one there is. -/
def firstDay : Nat := 0x21

/-- What the record of a member and its entry in the directory have in common. -/
def common (m : Member) : List (Nat × Nat) :=
  [(2, 20), (2, 0), (2, 0), (2, 0), (2, firstDay), (4, (checksum m.bytes).toNat),
    (4, m.bytes.length), (4, m.bytes.length), (2, m.name.length), (2, 0)]

def memberRecord (m : Member) : List UInt8 :=
  fields ((4, memberMark) :: common m) ++ m.name ++ m.bytes

def directoryEntry (m : Member) (offset : Nat) : List UInt8 :=
  fields ([(4, entryMark), (2, 20)] ++ common m ++ [(2, 0), (2, 0), (2, 0), (4, 0), (4, offset)]) ++
    m.name

/-- The directory of members that start at `offset`. -/
def directory (offset : Nat) : List Member → List UInt8
  | [] => []
  | m :: ms => directoryEntry m offset ++ directory (offset + (memberRecord m).length) ms

def encodeMembers (ms : List Member) : List UInt8 :=
  let records := ms.flatMap memberRecord
  let entries := directory 0 ms
  records ++ entries ++ fields [(4, endMark), (2, 0), (2, 0), (2, ms.length), (2, ms.length),
    (4, entries.length), (4, records.length), (2, 0)]

/-- The ending of the names of array files. -/
def ending : String := ".npy"

/-- The bytes of an archive of named arrays. -/
def encode (arrays : List (String × Dense)) : List UInt8 :=
  encodeMembers (arrays.map fun a => ⟨(a.1 ++ ending).toUTF8.toList, ArrayFile.encode a.2⟩)

/-! ## Reading -/

/-- The number in `width` bytes from `start` on. -/
def numberAt (bs : List UInt8) (start width : Nat) : Nat :=
  Bytes.toNat ((bs.drop start).take width)

/-- The bytes from the last place of a mark on. -/
def fromLast? (mark : List UInt8) : List UInt8 → Option (List UInt8)
  | [] => none
  | b :: bs =>
    match fromLast? mark bs with
    | some found => some found
    | none => if mark.isPrefixOf (b :: bs) then some (b :: bs) else none

/-- The end record and a comment take no more bytes than this. -/
def maxEnd : Nat := 22 + 65535

/-- The end record. -/
def endRecord? (bs : List UInt8) : Option (List UInt8) :=
  fromLast? (Bytes.littleEndian 4 endMark) (bs.drop (bs.length - maxEnd))

/-- The members that a directory lists; none of them may be compressed. -/
def members? (bs : List UInt8) : (count : Nat) → (entries : List UInt8) → Option (List Member)
  | 0, _ => some []
  | count + 1, entries => do
    if numberAt entries 0 4 != entryMark || numberAt entries 10 2 != 0 then none
    let size := numberAt entries 20 4
    let nameLength := numberAt entries 28 2
    let tail := numberAt entries 30 2 + numberAt entries 32 2
    let record := bs.drop (numberAt entries 42 4)
    let start := 30 + numberAt record 26 2 + numberAt record 28 2
    let member : Member :=
      ⟨(entries.drop 46).take nameLength, (record.drop start).take size⟩
    return member :: (← members? bs count (entries.drop (46 + nameLength + tail)))

/-- The name of an array, without the ending of its file. -/
def arrayName (name : List UInt8) : String :=
  let cs := name.map fun b => Char.ofNat b.toNat
  let tail := ending.toList.reverse
  String.ofList (if tail.isPrefixOf cs.reverse then cs.take (cs.length - tail.length) else cs)

/-- The arrays in an archive. -/
def decode? (bs : List UInt8) : Option (List (String × Dense)) := do
  let last ← endRecord? bs
  let entries := bs.drop (numberAt last 16 4)
  let ms ← members? bs (numberAt last 10 2) entries
  ms.mapM fun m => do return (arrayName m.name, ← ArrayFile.decode? m.bytes)

end IndexNotation.Archive
