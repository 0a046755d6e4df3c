import LazyTensor.Text
import LazyTensor.Double

/-!
Element types of buffers, their promotion order, and the bytes their values are stored as.
Values are computed with as doubles and rounded through the element type when stored.
-/
namespace LazyTensor

inductive Scalar where
  | bool
  | int8
  | uint8
  | int32
  | int64
  | float16
  | float32
  | float64
  deriving DecidableEq, Repr

inductive Element where
  | bool
  | int8
  | uint8
  | int32
  | int64
  | float16
  | float32
  | float64
  | half4
  | float2
  | float4
  /-- Two integers, the coordinates of an image. -/
  | int2
  /-- An image of `height` rows of `width` texels with four lanes each. -/
  | image (half : Bool) (height width : Int)
  deriving DecidableEq, Repr

/-- How a double becomes a half. A library does it, and not in the same way on every machine: all
that is known is that the result is the pattern of a half, and that a zero has the pattern of a
zero. -/
structure HalfRounding where
  bits : Double → Nat
  bits_lt : ∀ x, bits x < 65536
  bits_zero : bits 0.0 = 0

namespace HalfRounding

theorem encode_half_lt (x : Binary.Number) : Binary.encode .half x < 65536 := by
  have hsign (negative : Bool) : Binary.signBits .half negative ≤ 32768 := by
    cases negative <;> decide
  cases x with
  | finite negative m e =>
    have hmagnitude : Binary.encodeMagnitude .half m e ≤ 31744 := by
      unfold Binary.encodeMagnitude
      split
      · exact Nat.zero_le _
      · exact Nat.min_le_right _ _
    have := hsign negative
    rw [Binary.encode]
    omega
  | infinite negative =>
    have := hsign negative
    rw [Binary.encode, show Binary.Format.half.infinity = 31744 from rfl]
    omega
  | nan negative payload =>
    have := hsign negative
    have hquiet : Binary.quietFraction .half payload < 1024 := by
      rw [Binary.quietFraction, show Binary.Format.half.hidden = 1024 from rfl]
      omega
    rw [Binary.encode, show Binary.Format.half.infinity = 31744 from rfl]
    omega

/-- Rounding by way of a single, which proofs do not look into. -/
@[irreducible] def library : HalfRounding where
  bits x := Binary.encode .half (Binary.round .single x.number)
  bits_lt _ := encode_half_lt _
  bits_zero := rfl

end HalfRounding

namespace Scalar

def size : Scalar → Nat
  | bool | int8 | uint8 => 1
  | float16 => 2
  | int32 | float32 => 4
  | int64 | float64 => 8

def element : Scalar → Element
  | bool => .bool
  | int8 => .int8
  | uint8 => .uint8
  | int32 => .int32
  | int64 => .int64
  | float16 => .float16
  | float32 => .float32
  | float64 => .float64

def bounds? : Scalar → Option (Int × Int)
  | int8 => some (-128, 127)
  | uint8 => some (0, 255)
  | int32 => some (-2147483648, 2147483647)
  | int64 => some (-9223372036854775808, 9223372036854775807)
  | _ => none

/-- Number of values that fit into the bytes of the type. -/
def patterns : Scalar → Nat
  | bool | int8 | uint8 => 256
  | float16 => 65536
  | int32 | float32 => 4294967296
  | int64 | float64 => 18446744073709551616

/-- The bits a value is stored as. Integers are cut off toward zero and saturate. -/
def toBits (t : Scalar) (x : Double) : Nat :=
  match t with
  | bool => if x == 0.0 then 0 else 1
  | float16 => HalfRounding.library.bits x
  | float32 => Binary.encode .single x.number
  | float64 => x.bits.toNat
  | int8 | uint8 | int32 | int64 =>
    let (lo, hi) := t.bounds?.getD (0, 0)
    (x.saturate lo hi % t.patterns).toNat

def ofBits (t : Scalar) (bits : Nat) : Double :=
  match t with
  | bool => if bits = 0 then 0.0 else 1.0
  | float16 => .ofNumber (Binary.decode .half bits)
  | float32 => .ofNumber (Binary.decode .single bits)
  | float64 => ⟨bits.toUInt64⟩
  | uint8 => .ofInt bits
  | int8 | int32 | int64 => .ofInt ((bits : Int).bmod t.patterns)

def cast (t : Scalar) (x : Double) : Double :=
  match t with
  | bool => if x == 0.0 then 0.0 else 1.0
  | float16 => .ofNumber (Binary.decode .half (HalfRounding.library.bits x))
  | float32 => .ofNumber (Binary.round .single x.number)
  | float64 => x
  | int8 | uint8 | int32 | int64 =>
    let (lo, hi) := t.bounds?.getD (0, 0)
    .ofInt (x.saturate lo hi)

def splitBytes : Nat → Nat → List UInt8
  | 0, _ => []
  | n + 1, bits => (bits % 256).toUInt8 :: splitBytes n (bits / 256)

def joinBytes : List UInt8 → Nat
  | [] => 0
  | b :: bs => b.toNat + 256 * joinBytes bs

def encode (t : Scalar) (values : List Double) : List UInt8 :=
  values.flatMap (fun x => splitBytes t.size (t.toBits x))

/-- Whole values from the start of the bytes. The count bounds how many there can be. -/
def decodeUpTo (t : Scalar) : Nat → List UInt8 → List Double
  | 0, _ => []
  | n + 1, bytes =>
    let chunk := bytes.take t.size
    if chunk.length = t.size then t.ofBits (joinBytes chunk) :: decodeUpTo t n (bytes.drop t.size)
    else []

def decode (t : Scalar) (bytes : List UInt8) : List Double := t.decodeUpTo bytes.length bytes

end Scalar

namespace Element

def priority : Element → Nat
  | bool | int8 | uint8 | float16 | float64 | half4 => 0
  | int32 => 1
  | int64 | int2 => 2
  | float32 | float2 | float4 => 4
  | image _ _ _ => 100

def itemSize : Element → Nat
  | bool | int8 | uint8 => 1
  | float16 => 2
  | int32 | float32 => 4
  | int64 | float64 | half4 | float2 | int2 => 8
  | float4 => 16
  | image half _ _ => if half then 2 else 4

def name : Element → String
  | bool => "bool"
  | int8 => "char"
  | uint8 => "unsigned char"
  | int32 => "int"
  | int64 => "long"
  | float16 => "half"
  | float32 => "float"
  | float64 => "double"
  | half4 => "half4"
  | float2 => "float2"
  | float4 => "float4"
  | int2 => "int2"
  | image half _ _ => if half then "imageh" else "imagef"

def lanes : Element → Nat
  | half4 | float4 => 4
  | float2 | int2 => 2
  | _ => 1

def isFloat : Element → Bool
  | float16 | float32 | float64 | half4 | float2 | float4 | image _ _ _ => true
  | _ => false

def isInt : Element → Bool
  | int8 | uint8 | int32 | int64 | int2 => true
  | _ => false

def isImage : Element → Bool
  | image _ _ _ => true
  | _ => false

def scalar : Element → Scalar
  | bool => .bool
  | int8 => .int8
  | uint8 => .uint8
  | int32 | int2 => .int32
  | int64 => .int64
  | float16 | half4 => .float16
  | float32 | float2 | float4 => .float32
  | float64 => .float64
  | image half _ _ => if half then .float16 else .float32

def imageShape? : Element → Option (List Int)
  | image _ height width => some [height, width, 4]
  | _ => none

def text : Element → String
  | image half height width =>
    "dtypes." ++ (image half height width).name ++ s!"(({height}, {width}, 4))"
  | e => "dtypes." ++ e.name

/-- Extent of an image, which orders images of one kind. -/
def extent : Element → Int × Int
  | image _ height width => (height, width)
  | _ => (0, 0)

/-- Promotion order: by priority, then size, then name, then extent. -/
def order (a b : Element) : Ordering :=
  (compare a.priority b.priority).then <|
  (compare a.itemSize b.itemSize).then <|
  (compare a.name b.name).then <|
  (compare a.extent.1 b.extent.1).then (compare a.extent.2 b.extent.2)

def join (a b : Element) : Element := if a.order b = .gt then a else b

def encode (e : Element) (values : List Double) : List UInt8 := e.scalar.encode values

def decode (e : Element) (bytes : List UInt8) : List Double := e.scalar.decode bytes

def cast (e : Element) (x : Double) : Double := e.scalar.cast x

end Element

end LazyTensor
