/-!
# Byte buffers

A buffer is an array of bytes.  A word is a list of bytes, least significant first, standing for a
number below `256 ^ length`.
-/

namespace BinarySchema

abbrev Buffer := Array UInt8

namespace Buffer

/-- The bytes from `start` on, `count` of them as far as the buffer reaches. -/
def slice (buffer : Buffer) (start count : Nat) : List UInt8 :=
  (buffer.extract start (start + count)).toList

/-- Replaces the bytes from `start` on; what would fall outside the buffer is passed over. -/
def overwrite (buffer : Buffer) (start : Nat) : List UInt8 → Buffer
  | [] => buffer
  | byte :: rest => overwrite (buffer.setIfInBounds start byte) (start + 1) rest

@[simp] theorem size_overwrite (buffer : Buffer) (start : Nat) (bytes : List UInt8) :
    (buffer.overwrite start bytes).size = buffer.size := by
  induction bytes generalizing buffer start with
  | nil => rfl
  | cons byte rest ih => simp [overwrite, ih]

def zeros (size : Nat) : Buffer :=
  Array.replicate size 0

end Buffer

/-! ## Words -/

def wordOfBytes : List UInt8 → Nat
  | [] => 0
  | byte :: rest => byte.toNat + 256 * wordOfBytes rest

def bytesOfWord : Nat → Nat → List UInt8
  | 0, _ => []
  | count + 1, word => UInt8.ofNat (word % 256) :: bytesOfWord count (word / 256)

@[simp] theorem length_bytesOfWord (count word : Nat) :
    (bytesOfWord count word).length = count := by
  induction count generalizing word with
  | zero => rfl
  | succ count ih => simp [bytesOfWord, ih]

theorem wordOfBytes_bytesOfWord (count word : Nat) :
    wordOfBytes (bytesOfWord count word) = word % Nat.pow 256 count := by
  induction count generalizing word with
  | zero => simp [bytesOfWord, wordOfBytes, Nat.mod_one]
  | succ count ih =>
      have hbyte : (UInt8.ofNat (word % 256)).toNat = word % 256 :=
        (UInt8.toNat_ofNat').trans (Nat.mod_mod word 256)
      have hpow : Nat.pow 256 (count + 1) = 256 * Nat.pow 256 count := Nat.mul_comm _ _
      simp only [bytesOfWord, wordOfBytes, ih, hbyte]
      rw [hpow, Nat.mod_mul]

theorem bytesOfWord_wordOfBytes (bytes : List UInt8) :
    bytesOfWord bytes.length (wordOfBytes bytes) = bytes := by
  induction bytes with
  | nil => rfl
  | cons byte rest ih =>
      have hbyte : byte.toNat < 256 := byte.toNat_lt
      simp only [List.length_cons, bytesOfWord, wordOfBytes]
      rw [Nat.add_mul_mod_self_left, Nat.mod_eq_of_lt hbyte, Nat.add_mul_div_left _ _ (by decide),
        Nat.div_eq_of_lt hbyte, Nat.zero_add, ih]
      simp

end BinarySchema
