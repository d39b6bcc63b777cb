/-!
# Decimal digits

Digits are numbers below ten, the first one being the most significant. Main statements: the digits
of a number denote it, and digits written in front of a text that starts with none are read back.
-/

namespace TransferCurves.Decimal

abbrev Digit := Fin 10

def Digit.toChar (d : Digit) : Char := Char.ofNat ('0'.toNat + d.val)

def Digit.ofChar? (c : Char) : Option Digit :=
  if h : '0'.toNat ≤ c.toNat ∧ c.toNat ≤ '9'.toNat then
    some ⟨c.toNat - '0'.toNat, by
      have : '9'.toNat = '0'.toNat + 9 := rfl
      omega⟩
  else none

theorem Digit.ofChar?_toChar (d : Digit) : Digit.ofChar? d.toChar = some d := by
  match d with
  | 0 | 1 | 2 | 3 | 4 | 5 | 6 | 7 | 8 | 9 => rfl

def digitsOf (n : Nat) : List Digit :=
  if h : n < 10 then [⟨n, h⟩]
  else digitsOf (n / 10) ++ [⟨n % 10, Nat.mod_lt n (by decide)⟩]
termination_by n

def ofDigitsFrom (acc : Nat) (ds : List Digit) : Nat := ds.foldl (fun n d => 10 * n + d.val) acc

def ofDigits (ds : List Digit) : Nat := ofDigitsFrom 0 ds

theorem ofDigits_digitsOf (n : Nat) : ofDigits (digitsOf n) = n := by
  fun_induction digitsOf n with
  | case1 n h => simp [ofDigits, ofDigitsFrom]
  | case2 n h ih =>
    have happ : ofDigits (digitsOf (n / 10) ++ [⟨n % 10, Nat.mod_lt n (by decide)⟩]) =
        10 * ofDigits (digitsOf (n / 10)) + n % 10 := by
      simp [ofDigits, ofDigitsFrom, List.foldl_append]
    rw [happ, ih]
    omega

theorem digitsOf_ne_nil (n : Nat) : digitsOf n ≠ [] := by
  fun_induction digitsOf n with
  | case1 n h => simp
  | case2 n h ih => simp

def spanDigits : List Char → List Digit × List Char
  | [] => ([], [])
  | c :: cs =>
    match Digit.ofChar? c with
    | some d => let (ds, rest) := spanDigits cs; (d :: ds, rest)
    | none => ([], c :: cs)

theorem spanDigits_toChar_append (ds : List Digit) (rest : List Char)
    (hrest : ∀ c cs, rest = c :: cs → Digit.ofChar? c = none) :
    spanDigits (ds.map Digit.toChar ++ rest) = (ds, rest) := by
  induction ds with
  | nil =>
    cases rest with
    | nil => rfl
    | cons c cs => simp [spanDigits, hrest c cs rfl]
  | cons d ds ih => simp [spanDigits, Digit.ofChar?_toChar, ih]

end TransferCurves.Decimal
