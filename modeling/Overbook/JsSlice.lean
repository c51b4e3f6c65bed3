/-! `text.slice(0, n)`, which counts UTF-16 units, of a text that is then stored as UTF-8. -/
namespace Overbook

def utf16Units (c : Char) : Nat := if c.toNat < 0x10000 then 1 else 2

def utf16Length : List Char → Nat
  | [] => 0
  | c :: rest => utf16Units c + utf16Length rest

/- The first half of a surrogate pair at the end is stored as U+FFFD. -/
def sliceChars : Nat → List Char → List Char
  | _, [] => []
  | n, c :: rest =>
    if utf16Units c ≤ n then c :: sliceChars (n - utf16Units c) rest
    else if n = 0 then []
    else ['\uFFFD']

def slice (n : Nat) (text : String) : String := String.ofList (sliceChars n text.toList)

theorem sliceChars_fits (n : Nat) (text : List Char) : utf16Length (sliceChars n text) ≤ n := by
  induction text generalizing n with
  | nil => exact Nat.zero_le n
  | cons c rest ih =>
    unfold sliceChars
    split
    · next fits =>
      have tail := ih (n - utf16Units c)
      unfold utf16Length
      omega
    · split
      · exact Nat.zero_le n
      · next some =>
        have one : utf16Length ['\uFFFD'] = 1 := rfl
        omega

theorem slice_fits (n : Nat) (text : String) : utf16Length (slice n text).toList ≤ n := by
  rw [slice, String.toList_ofList]
  exact sliceChars_fits n text.toList

example : slice 3 "a𝄞b𝄞" = "a𝄞" := by decide +kernel
example : slice 5 "a𝄞b𝄞" = "a𝄞b\uFFFD" := by decide +kernel

end Overbook
