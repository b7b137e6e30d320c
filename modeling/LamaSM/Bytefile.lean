import LamaSM.Lib.FixedWidth
import LamaSM.Lib.Bytes

/-! The bytecode file as `read_file` unpacks it (`bytefile/bytefile.h`, `bytefile/bytefile.cpp`).

    A `Bytefile` keeps the bytes of the file, the three header words included; the public table, the
    string table and the code are pointers behind the header, here offsets from the start of the file.
    Every access goes through these offsets, so an access that leaves the file is visible as the fault
    `undefined`; one that a negative section size leads into the header stays in the file. Ways to stop
    shared by the verifier and the interpreter are collected in `Fault`. -/

namespace LamaSM
open Lib

/-- An access C gives no meaning to, with the index or address that was asked for. -/
inductive Access
  | buffer (i : ℤ)
  | visited (i : ℤ)
  | beginOffsets
  | argSizes
  | stackRead (i : ℤ)
  | stackWrite (i : ℤ)
  | object (address : ℕ)
  | intOverflow
  deriving DecidableEq, Repr

/-- How a function of the program ends without returning. -/
inductive Fault
  /-- `std::runtime_error` -/
  | runtimeError (what : String)
  /-- `std::logic_error` -/
  | logicError (what : String)
  /-- `failure ()`, or `perror` followed by `exit` -/
  | exit (message : String)
  | undefined (access : Access)
  /-- the bound on the number of loop turns ran out: a longer run is needed to tell -/
  | timeout
  deriving DecidableEq, Repr

abbrev Result := Except Fault

/-- The 32-bit header word at offset `i` of the file, little endian. -/
def headerWord (file : List UInt8) (i : ℕ) : ℤ :=
  match (file.drop i).take 4 with
  | [] => 0
  | b :: bs => toI32 (byteValue (b :: bs))

theorem headerWord_lt (file : List UInt8) (i : ℕ) : headerWord file i < 2 ^ 31 := by
  unfold headerWord
  split
  · decide
  · exact toI32_lt _

/-- `bytefile`: `bytes` are those of the file, from `stringtab_size` on, and the pointers are offsets
    into them. The header words are part of the bytes. -/
structure Bytefile where
  codeSize : ℤ
  stringPtr : ℤ
  publicPtr : ℤ
  codePtr : ℤ
  stringtabSize : ℤ
  globalAreaSize : ℤ
  publicSymbolsNumber : ℤ
  bytes : List UInt8
  /-- `code_size` is an `int` -/
  codeSize_lt : codeSize < 2 ^ 31
  stringtabSize_eq : stringtabSize = headerWord bytes 0
  globalAreaSize_eq : globalAreaSize = headerWord bytes 4
  publicSymbolsNumber_eq : publicSymbolsNumber = headerWord bytes 8
  deriving DecidableEq

namespace Bytefile

theorem stringtabSize_lt (bf : Bytefile) : bf.stringtabSize < 2 ^ 31 := by
  rw [bf.stringtabSize_eq]
  exact headerWord_lt _ _

theorem globalAreaSize_lt (bf : Bytefile) : bf.globalAreaSize < 2 ^ 31 := by
  rw [bf.globalAreaSize_eq]
  exact headerWord_lt _ _

/-- The file in memory with its bytes overwritten. -/
def withBytes (bf : Bytefile) (bytes : List UInt8) : Bytefile := { bf with
  bytes := bytes
  stringtabSize := headerWord bytes 0
  globalAreaSize := headerWord bytes 4
  publicSymbolsNumber := headerWord bytes 8
  stringtabSize_eq := rfl
  globalAreaSize_eq := rfl
  publicSymbolsNumber_eq := rfl }

@[simp] theorem withBytes_bytes (bf : Bytefile) (bytes : List UInt8) : (bf.withBytes bytes).bytes = bytes := rfl

theorem withBytes_self (bf : Bytefile) : bf.withBytes bf.bytes = bf := by
  rw [withBytes]
  simp only [← stringtabSize_eq, ← globalAreaSize_eq, ← publicSymbolsNumber_eq]

@[simp] theorem withBytes_codePtr (bf : Bytefile) (bytes : List UInt8) :
    (bf.withBytes bytes).codePtr = bf.codePtr := rfl

@[simp] theorem withBytes_codeSize (bf : Bytefile) (bytes : List UInt8) :
    (bf.withBytes bytes).codeSize = bf.codeSize := rfl

/-- The byte of the file at offset `i`. -/
def byte (bf : Bytefile) (i : ℤ) : Result ℕ :=
  if i < 0 then .error (.undefined (.buffer i))
  else match bf.bytes[i.toNat]? with
    | some b => .ok b.toNat
    | none => .error (.undefined (.buffer i))

/-- `*reinterpret_cast<const uint16_t *>` of offset `i`, little endian. -/
def uint16 (bf : Bytefile) (i : ℤ) : Result ℕ := do
  let b0 ← bf.byte i
  let b1 ← bf.byte (i + 1)
  return b0 + 2 ^ 8 * b1

/-- `*reinterpret_cast<const uint32_t *>` of offset `i`, little endian. -/
def uint32 (bf : Bytefile) (i : ℤ) : Result ℕ := do
  let h0 ← bf.uint16 i
  let h1 ← bf.uint16 (i + 2)
  return h0 + 2 ^ 16 * h1

/-- The code byte at offset `o`. -/
def code (bf : Bytefile) (o : ℤ) : Result ℕ := bf.byte (bf.codePtr + o)

/-- The 16-bit word at offset `o` of the code. -/
def code16 (bf : Bytefile) (o : ℤ) : Result ℕ := bf.uint16 (bf.codePtr + o)

/-- The 32-bit word at offset `o` of the code. -/
def code32 (bf : Bytefile) (o : ℤ) : Result ℕ := bf.uint32 (bf.codePtr + o)

/-- Overwrites the 16-bit word at offset `o` of the code. -/
def setCode16 (bf : Bytefile) (o : ℤ) (v : ℕ) : Bytefile :=
  let i := (bf.codePtr + o).toNat
  bf.withBytes ((bf.bytes.set i (UInt8.ofNat (v % 2 ^ 8))).set (i + 1) (UInt8.ofNat (v / 2 ^ 8)))

@[simp] theorem setCode16_codePtr (bf : Bytefile) (o : ℤ) (v : ℕ) :
    (bf.setCode16 o v).codePtr = bf.codePtr := rfl

@[simp] theorem setCode16_codeSize (bf : Bytefile) (o : ℤ) (v : ℕ) :
    (bf.setCode16 o v).codeSize = bf.codeSize := rfl

theorem setCode16_bytes (bf : Bytefile) (o : ℤ) (v : ℕ) : (bf.setCode16 o v).bytes =
    (bf.bytes.set (bf.codePtr + o).toNat (UInt8.ofNat (v % 2 ^ 8))).set ((bf.codePtr + o).toNat + 1)
      (UInt8.ofNat (v / 2 ^ 8)) := rfl

/-- `public_ptr[i]`, an `int`. -/
def publicWord (bf : Bytefile) (i : ℤ) : Result ℤ := do
  let w ← bf.uint32 (bf.publicPtr + 4 * i)
  return toI32 w

/-- `get_public_offset` -/
def getPublicOffset (bf : Bytefile) (i : ℕ) : Result ℤ := bf.publicWord (i * 2 + 1)

/-- `strcmp (get_string (f, pos), s) == 0`: bytes are read up to the first difference. -/
def stringIs (bf : Bytefile) (pos : ℤ) : List ℕ → Result Bool
  | [] => do
    let b ← bf.byte (bf.stringPtr + pos)
    return b == 0
  | c :: cs => do
    let b ← bf.byte (bf.stringPtr + pos)
    if b = c then stringIs bf (pos + 1) cs else return false

/-- `strcmp (get_public_name (bf, i), "main") == 0` -/
def isMain (bf : Bytefile) (i : ℕ) : Result Bool := do
  let pos ← bf.publicWord (i * 2)
  bf.stringIs pos [109, 97, 105, 110]

/-- `strlen` at offset `i` with the bytes it counts; none when the file ends before a NUL. -/
def cString (bf : Bytefile) (i : ℤ) : Result (List UInt8) :=
  if i < 0 then .error (.undefined (.buffer i))
  else if 0 ∈ bf.bytes.drop i.toNat then .ok ((bf.bytes.drop i.toNat).takeWhile (· ≠ 0))
  else .error (.undefined (.buffer bf.bytes.length))

/-- The end of `read_file`: the pointers are set from the header words of the bytes that were read. The
    code size is narrowed to `int`. -/
def unpack (fileSize : ℕ) (bytes : List UInt8) : Bytefile where
  codeSize := toI32 (fileSize - (12 + headerWord bytes 8 * 2 * 4 + headerWord bytes 0))
  stringPtr := 12 + headerWord bytes 8 * 2 * 4
  publicPtr := 12
  codePtr := 12 + headerWord bytes 8 * 2 * 4 + headerWord bytes 0
  stringtabSize := headerWord bytes 0
  globalAreaSize := headerWord bytes 4
  publicSymbolsNumber := headerWord bytes 8
  bytes := bytes
  codeSize_lt := toI32_lt _
  stringtabSize_eq := rfl
  globalAreaSize_eq := rfl
  publicSymbolsNumber_eq := rfl

/-- The file with these bytes. -/
def ofBytes (bytes : List UInt8) : Bytefile := unpack bytes.length bytes

/-- A header word of one byte. -/
theorem headerWord_byte (b : UInt8) {file rest : List UInt8} {i : ℕ}
    (h : file.drop i = b :: 0 :: 0 :: 0 :: rest) : (b.toNat : ℤ) = headerWord file i := by
  have hb := b.toNat_lt
  rw [headerWord, h]
  show (b.toNat : ℤ) = toI32 (byteValue [b, 0, 0, 0])
  have hvalue : byteValue [b, 0, 0, 0] = b.toNat := by simp [byteValue]
  rw [hvalue, toI32_of_lt (by omega)]

/-- A file of code only. -/
def ofCode (code : List UInt8) : Bytefile where
  codeSize := toI32 code.length
  stringPtr := 12
  publicPtr := 12
  codePtr := 12
  stringtabSize := 0
  globalAreaSize := 0
  publicSymbolsNumber := 0
  bytes := [0, 0, 0, 0, 0, 0, 0, 0, 0, 0, 0, 0] ++ code
  codeSize_lt := toI32_lt _
  stringtabSize_eq := headerWord_byte 0 rfl
  globalAreaSize_eq := headerWord_byte 0 rfl
  publicSymbolsNumber_eq := headerWord_byte 0 rfl

/-- A file whose one public symbol, and one string, is `main`, where the code begins. -/
def ofMain (globals : UInt8) (code : List UInt8) : Bytefile where
  codeSize := toI32 code.length
  stringPtr := 20
  publicPtr := 12
  codePtr := 25
  stringtabSize := 5
  globalAreaSize := globals.toNat
  publicSymbolsNumber := 1
  bytes := [5, 0, 0, 0, globals, 0, 0, 0, 1, 0, 0, 0] ++
    ([0, 0, 0, 0, 0, 0, 0, 0, 109, 97, 105, 110, 0] ++ code)
  codeSize_lt := toI32_lt _
  stringtabSize_eq := headerWord_byte 5 rfl
  globalAreaSize_eq := headerWord_byte globals rfl
  publicSymbolsNumber_eq := headerWord_byte 1 rfl

/-- The pointers of both are those `read_file` finds. -/
theorem ofCode_eq (code : List UInt8) : ofCode code = ofBytes (ofCode code).bytes := by
  have hlength : (ofCode code).bytes.length = 12 + code.length := by
    rw [ofCode, List.length_append]
    rfl
  have hsize : ((12 + code.length : ℕ) : ℤ) - (12 + 0 * 2 * 4 + 0) = code.length := by omega
  rw [ofBytes, hlength, unpack]
  simp only [← stringtabSize_eq, ← globalAreaSize_eq, ← publicSymbolsNumber_eq]
  simp only [ofCode, hsize]
  rfl

theorem ofMain_eq (globals : UInt8) (code : List UInt8) :
    ofMain globals code = ofBytes (ofMain globals code).bytes := by
  have hlength : (ofMain globals code).bytes.length = 25 + code.length := by
    rw [ofMain, List.length_append, List.length_append, ← Nat.add_assoc]
    rfl
  have hsize : ((25 + code.length : ℕ) : ℤ) - (12 + 1 * 2 * 4 + 5) = code.length := by omega
  rw [ofBytes, hlength, unpack]
  simp only [← stringtabSize_eq, ← globalAreaSize_eq, ← publicSymbolsNumber_eq]
  simp only [ofMain, hsize]
  rfl

end Bytefile

/-- `read_file` on the bytes of an existing file. The number of bytes to read is narrowed to `int`; a
    negative one makes `read` fail, and `strerror` is the text of the error it leaves. The bytes that
    are not read stay undefined, as the header words of a file that has none. The product
    `public_symbols_number * 2` is computed in `int`. -/
def readFile (strerror : String) (file : List UInt8) : Result Bytefile :=
  let count := toI32 file.length
  let symbols := headerWord file 8 * 2
  if count < 0 then .error (.exit (strerror ++ "\n"))
  else if count < 12 then .error (.undefined (.buffer count))
  else if toI32 symbols ≠ symbols then .error (.undefined .intOverflow)
  else .ok (Bytefile.unpack file.length (file.take count.toNat))

end LamaSM
