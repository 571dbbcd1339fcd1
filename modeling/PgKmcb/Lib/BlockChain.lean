import Mathlib.Data.List.Basic
import Mathlib.Tactic.Common

/-!
# Chains of blocks

Cipher block chaining over an arbitrary type of blocks.  Each block is combined with
the one before it, as it was encrypted, so the decryption needs the encrypted blocks
only, and undoes the encryption as soon as the block cipher can be undone
(`decrypt_encrypt`).

A program walks the blocks from the front and keeps the last encrypted one;
`encrypt_concat` and `decrypt_concat` are the steps of that walk, and
`foldl_reverse` undoes a sequence of rounds from the last one on.
-/

universe u v

namespace PgKmcb.Lib.BlockChain

variable {B : Type u} (add : B → B → B) (E D : B → B)

/-- Each block is added to the encrypted block before it, then encrypted. -/
def encrypt (iv : B) : List B → List B
  | [] => []
  | p :: ps => E (add p iv) :: encrypt (E (add p iv)) ps

/-- Each block is decrypted, then the encrypted block before it is added. -/
def decrypt (iv : B) : List B → List B
  | [] => []
  | c :: cs => add (D c) iv :: decrypt c cs

/-- The block that the next one is chained to. -/
def last (iv : B) : List B → B
  | [] => iv
  | c :: cs => last c cs

theorem last_concat (iv : B) (cs : List B) (c : B) : last iv (cs ++ [c]) = c := by
  induction cs generalizing iv with
  | nil => rfl
  | cons d cs ih => exact ih d

@[simp] theorem length_encrypt (iv : B) (ps : List B) :
    (encrypt add E iv ps).length = ps.length := by
  induction ps generalizing iv with
  | nil => rfl
  | cons p ps ih => rw [encrypt, List.length_cons, List.length_cons, ih]

@[simp] theorem length_decrypt (iv : B) (cs : List B) :
    (decrypt add D iv cs).length = cs.length := by
  induction cs generalizing iv with
  | nil => rfl
  | cons c cs ih => rw [decrypt, List.length_cons, List.length_cons, ih]

theorem encrypt_concat (iv : B) (ps : List B) (p : B) : encrypt add E iv (ps ++ [p]) =
    encrypt add E iv ps ++ [E (add p (last iv (encrypt add E iv ps)))] := by
  induction ps generalizing iv with
  | nil => rfl
  | cons q ps ih => rw [List.cons_append, encrypt, ih, encrypt, last, List.cons_append]

theorem decrypt_concat (iv : B) (cs : List B) (c : B) : decrypt add D iv (cs ++ [c]) =
    decrypt add D iv cs ++ [add (D c) (last iv cs)] := by
  induction cs generalizing iv with
  | nil => rfl
  | cons d cs ih => rw [List.cons_append, decrypt, ih, decrypt, last, List.cons_append]

theorem last_append (iv : B) (cs ds : List B) :
    last iv (cs ++ ds) = last (last iv cs) ds := by
  induction cs generalizing iv with
  | nil => rfl
  | cons c cs ih => exact ih c

/-- A chain goes on from the last encrypted block. -/
theorem encrypt_append (iv : B) (ps qs : List B) : encrypt add E iv (ps ++ qs) =
    encrypt add E iv ps ++ encrypt add E (last iv (encrypt add E iv ps)) qs := by
  induction ps generalizing iv with
  | nil => rfl
  | cons p ps ih => rw [List.cons_append, encrypt, ih, encrypt, last, List.cons_append]

theorem decrypt_append (iv : B) (cs ds : List B) : decrypt add D iv (cs ++ ds) =
    decrypt add D iv cs ++ decrypt add D (last iv cs) ds := by
  induction cs generalizing iv with
  | nil => rfl
  | cons c cs ih => rw [List.cons_append, decrypt, ih, decrypt, last, List.cons_append]

/-- The first blocks of a chain are the chain of the first blocks. -/
theorem take_encrypt (iv : B) (ps : List B) (n : ℕ) :
    (encrypt add E iv ps).take n = encrypt add E iv (ps.take n) := by
  induction ps generalizing iv n with
  | nil => simp [encrypt]
  | cons p ps ih =>
      cases n with
      | zero => rfl
      | succ n => rw [encrypt, List.take_succ_cons, ih, List.take_succ_cons, encrypt]

variable {add E D}

/-- Decryption undoes encryption. -/
theorem decrypt_encrypt (hadd : ∀ x y, add (add x y) y = x) (hDE : ∀ x, D (E x) = x) (iv : B)
    (ps : List B) : decrypt add D iv (encrypt add E iv ps) = ps := by
  induction ps generalizing iv with
  | nil => rfl
  | cons p ps ih => rw [encrypt, decrypt, hDE, hadd, ih]

/-- Encryption undoes decryption, if the block cipher is undone from both sides. -/
theorem encrypt_decrypt (hadd : ∀ x y, add (add x y) y = x) (hED : ∀ x, E (D x) = x) (iv : B)
    (cs : List B) : encrypt add E iv (decrypt add D iv cs) = cs := by
  induction cs generalizing iv with
  | nil => rfl
  | cons c cs ih => rw [decrypt, encrypt, hadd, hED, ih]

/-- A changed block is decrypted to a changed block, and its change is added to the block
behind it; all other blocks stay. -/
theorem decrypt_changed (hassoc : ∀ x y z, add x (add y z) = add (add x y) z)
    (hcancel : ∀ x y, add x (add x y) = y) (iv : B) (cs : List B) (c c' : B) (ds : List B) :
    decrypt add D iv (cs ++ c' :: ds) =
      decrypt add D iv cs ++ add (D c') (last iv cs) ::
        (decrypt add D c ds).modifyHead (add · (add c c')) := by
  rw [decrypt_append, decrypt]
  cases ds with
  | nil => rfl
  | cons d ds => rw [decrypt, decrypt, List.modifyHead_cons, ← hassoc, hcancel]

/-- Different blocks are encrypted differently. -/
theorem encrypt_injective (hadd : ∀ x y, add (add x y) y = x) (hDE : ∀ x, D (E x) = x) (iv : B) :
    Function.Injective (encrypt add E iv) :=
  Function.LeftInverse.injective (decrypt_encrypt hadd hDE iv)

/-- Rounds are undone from the last one on. -/
theorem foldl_reverse {ι : Type v} {f g : B → ι → B} (h : ∀ x r, g (f x r) r = x) (rs : List ι)
    (x : B) : rs.reverse.foldl g (rs.foldl f x) = x := by
  induction rs generalizing x with
  | nil => rfl
  | cons r rs ih =>
      rw [List.reverse_cons, List.foldl_append, List.foldl_cons (f := f), ih, List.foldl_cons,
        List.foldl_nil, h]

end PgKmcb.Lib.BlockChain
