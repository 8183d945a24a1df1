import Mathlib.Data.List.Basic
import Retia.Lib.Bytes

/-!
# Serialisers

A serialiser writes values as bytes such that reading gives back the value and whatever comes after
it (`Serial.dec_enc`). This is kept by pairs, lists and options, and by going over to a type that
can be recovered from the one that is written (`Serial.via`).
-/

namespace Retia

/-- A way to write the values of a type. -/
structure Serial (α : Type) where
  enc : α → Bytes
  dec : Bytes → Option (α × Bytes)
  dec_enc : ∀ a rest, dec (enc a ++ rest) = some (a, rest)

namespace Serial

variable {α β : Type}

/-- Values of a type are written as values of another one. -/
def via (B : Serial β) (f : α → β) (g : β → Option α) (h : ∀ a, g (f a) = some a) : Serial α where
  enc a := B.enc (f a)
  dec bs := (B.dec bs).bind fun r => (g r.1).map fun a => (a, r.2)
  dec_enc a rest := by simp [B.dec_enc, h]

def pair (A : Serial α) (B : Serial β) : Serial (α × β) where
  enc p := A.enc p.1 ++ B.enc p.2
  dec bs := (A.dec bs).bind fun r => (B.dec r.2).map fun r' => ((r.1, r'.1), r'.2)
  dec_enc p rest := by simp [List.append_assoc, A.dec_enc, B.dec_enc]

/-! ### Numbers -/

/-- A number as that many ones and a zero. -/
def encNat : Nat → Bytes
  | 0 => [0]
  | n + 1 => 1 :: encNat n

def decNat : Bytes → Option (Nat × Bytes)
  | [] => none
  | b :: bs => if b = 0 then some (0, bs) else (decNat bs).map fun r => (r.1 + 1, r.2)

def nat : Serial Nat where
  enc := encNat
  dec := decNat
  dec_enc n rest := by
    induction n with
    | zero => simp [encNat, decNat]
    | succ n ih => simp [encNat, decNat, ih]

def bool : Serial Bool :=
  nat.via (fun b => if b then 1 else 0) (fun n => some (n = 1)) (by decide)

/-- A number below `256 ^ w`, in `w` bytes. -/
def fixed (w : Nat) : Serial { n : Nat // n < 256 ^ w } where
  enc n := beBytes w n
  dec bs :=
    if h : (bs.take w).length = w then
      some (⟨beNat (bs.take w), (beNat_lt _).trans_eq (by rw [h])⟩, bs.drop w)
    else none
  dec_enc n rest := by
    have htake : (beBytes w n ++ rest).take w = beBytes w n := List.take_left' (by simp)
    have hdrop : (beBytes w n ++ rest).drop w = rest := List.drop_left' (by simp)
    simp only [htake, hdrop, length_beBytes, dite_true, beNat_beBytes n.2]

/-! ### Lists -/

section List

variable (A : Serial α)

def encMany : List α → Bytes
  | [] => []
  | a :: l => A.enc a ++ encMany l

def decMany : Nat → Bytes → Option (List α × Bytes)
  | 0, bs => some ([], bs)
  | n + 1, bs => (A.dec bs).bind fun r => (decMany n r.2).map fun r' => (r.1 :: r'.1, r'.2)

theorem decMany_encMany (l : List α) (rest : Bytes) :
    A.decMany l.length (A.encMany l ++ rest) = some (l, rest) := by
  induction l with
  | nil => rfl
  | cons a l ih => simp [encMany, decMany, List.append_assoc, A.dec_enc, ih]

def list : Serial (List α) where
  enc l := encNat l.length ++ A.encMany l
  dec bs := (decNat bs).bind fun r => A.decMany r.1 r.2
  dec_enc l rest := by
    rw [List.append_assoc, show decNat (encNat l.length ++ _) = _ from nat.dec_enc _ _,
      Option.bind_some, decMany_encMany]

def option : Serial (Option α) :=
  A.list.via Option.toList (fun l => some l.head?) (by rintro (_ | a) <;> rfl)

end List

/-! ### Texts -/

def char : Serial Char :=
  (fixed 4).via (fun c => ⟨c.toNat, c.val.toNat_lt⟩) (fun n => some (Char.ofNat n.1)) (fun c => by simp)

def string : Serial String :=
  char.list.via String.toList (fun l => some (String.ofList l)) (fun s => by simp)

def bytes : Serial Bytes :=
  ((fixed 1).via (fun b : UInt8 => ⟨b.toNat, b.toNat_lt⟩) (fun n => some (UInt8.ofNat n.1))
    (fun b => by simp)).list

end Serial

end Retia
