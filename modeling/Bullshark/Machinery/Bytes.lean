import Mathlib.Data.List.Basic
import Mathlib.Data.List.Lex
import Mathlib.Data.UInt
import Mathlib.Tactic.Ring

/-!
# Machinery/Bytes — fixed-width encodings and their concatenations

`leBytes k n` and `beBytes k n` spell `n` in `k` bytes.  Both are injective below `256 ^ k`, and
big-endian bytes compare lexicographically as the numbers do (`ints_beBytes_lt_iff`).  A sequence
of records of one positive width determines its records from their concatenation (`flatMap_inj`),
and so it does when some rest follows and the number of records is known (`flatMap_append_inj`).
-/

namespace Bytes

/-- `n` in `k` bytes, least significant first. -/
def leBytes : ℕ → ℕ → List UInt8
  | 0, _ => []
  | k + 1, n => UInt8.ofNat (n % 256) :: leBytes k (n / 256)

/-- `n` in `k` bytes, most significant first. -/
def beBytes (k n : ℕ) : List UInt8 := (leBytes k n).reverse

@[simp] theorem length_leBytes : ∀ k n, (leBytes k n).length = k
  | 0, _ => rfl
  | k + 1, n => by rw [leBytes, List.length_cons, length_leBytes k]

@[simp] theorem length_beBytes (k n : ℕ) : (beBytes k n).length = k := by
  rw [beBytes, List.length_reverse, length_leBytes]

/-- **Little-endian bytes determine the number below the bound of their width.** -/
theorem leBytes_inj : ∀ {k m n : ℕ}, m < 256 ^ k → n < 256 ^ k →
    leBytes k m = leBytes k n → m = n
  | 0, m, n, hm, hn, _ => by simp at hm hn; omega
  | k + 1, m, n, hm, hn, h => by
      obtain ⟨hhead, htail⟩ := List.cons.inj h
      have hb : m % 256 = n % 256 := by
        have := congrArg UInt8.toNat hhead
        simpa [UInt8.toNat_ofNat'] using this
      have hdiv : m / 256 = n / 256 :=
        leBytes_inj (by rw [pow_succ] at hm; omega) (by rw [pow_succ] at hn; omega) htail
      omega

theorem beBytes_inj {k m n : ℕ} (hm : m < 256 ^ k) (hn : n < 256 ^ k)
    (h : beBytes k m = beBytes k n) : m = n :=
  leBytes_inj hm hn (List.reverse_injective h)

/-! ## Order

Big-endian bytes of one width compare, one by one from the left, as the numbers do. -/

/-- The bytes as numbers, which lists compare lexicographically. -/
def ints (bytes : List UInt8) : List ℕ := bytes.map UInt8.toNat

theorem ints_injective : Function.Injective ints :=
  List.map_injective_iff.mpr fun _ _ h => UInt8.toNat_inj.mp h

theorem beBytes_succ (k n : ℕ) :
    beBytes (k + 1) n = beBytes k (n / 256) ++ [UInt8.ofNat (n % 256)] := by
  rw [beBytes, leBytes, List.reverse_cons]
  rfl

theorem append_singleton_lt_iff : ∀ {xs ys : List ℕ} {a b : ℕ}, xs.length = ys.length →
    (xs ++ [a] < ys ++ [b] ↔ xs < ys ∨ xs = ys ∧ a < b)
  | [], [], a, b, _ => by simp [List.cons_lt_cons_iff]
  | [], _ :: _, _, _, h => by simp at h
  | _ :: _, [], _, _, h => by simp at h
  | x :: xs, y :: ys, a, b, h => by
      rw [List.cons_append, List.cons_append, List.cons_lt_cons_iff, List.cons_lt_cons_iff,
        append_singleton_lt_iff (by simpa using h), List.cons.injEq]
      tauto

/-- **Big-endian bytes of one width compare as the numbers do.** -/
theorem ints_beBytes_lt_iff : ∀ {k m n : ℕ}, m < 256 ^ k → n < 256 ^ k →
    (ints (beBytes k m) < ints (beBytes k n) ↔ m < n)
  | 0, m, n, hm, hn => by simp at hm hn; simp [ints, beBytes, leBytes, hm, hn]
  | k + 1, m, n, hm, hn => by
      have hm' : m / 256 < 256 ^ k := by rw [pow_succ] at hm; omega
      have hn' : n / 256 < 256 ^ k := by rw [pow_succ] at hn; omega
      have hcons : ∀ n, ints (beBytes (k + 1) n) = ints (beBytes k (n / 256)) ++ [n % 256] := by
        intro n
        rw [beBytes_succ, ints, List.map_append]
        simp [ints]
      have heq : ints (beBytes k (m / 256)) = ints (beBytes k (n / 256)) ↔ m / 256 = n / 256 :=
        ⟨fun h => beBytes_inj hm' hn' (ints_injective h), fun h => by rw [h]⟩
      rw [hcons, hcons, append_singleton_lt_iff (by simp [ints]), ints_beBytes_lt_iff hm' hn', heq]
      omega

theorem leBytes_add : ∀ j k n : ℕ, leBytes (j + k) n = leBytes j n ++ leBytes k (n / 256 ^ j)
  | 0, k, n => by simp [leBytes]
  | j + 1, k, n => by
      rw [Nat.add_right_comm, leBytes, leBytes, leBytes_add j k, List.cons_append,
        Nat.div_div_eq_div_mul, pow_succ']

/-- Only the part below the bound of the width is spelled. -/
theorem leBytes_mod : ∀ k n : ℕ, leBytes k (n % 256 ^ k) = leBytes k n
  | 0, _ => rfl
  | k + 1, n => by
      rw [leBytes, leBytes, pow_succ', Nat.mod_mul_right_mod, Nat.mod_mul_right_div_self,
        leBytes_mod k]

/-- The leading bytes of a number are those of its quotient. -/
theorem take_beBytes (j k n : ℕ) : (beBytes (j + k) n).take k = beBytes k (n / 256 ^ j) := by
  rw [beBytes, leBytes_add, List.reverse_append]
  exact List.take_left' (length_beBytes _ _)

/-! ## Sequences of fixed-width records -/

section Records

variable {α : Type*} {f : α → List UInt8} {w : ℕ}

theorem length_flatMap_of_width (hf : ∀ a, (f a).length = w) :
    ∀ l : List α, (l.flatMap f).length = w * l.length
  | [] => by simp
  | a :: l => by
      rw [List.flatMap_cons, List.length_append, hf, length_flatMap_of_width hf l,
        List.length_cons, Nat.mul_succ, Nat.add_comm]

/-- Two record sequences of equal length with equal concatenations, each followed by some rest,
are the same sequence and have the same rest. -/
theorem flatMap_append_inj (hf : ∀ a, (f a).length = w) (hinj : Function.Injective f) :
    ∀ {l l' : List α} {r r' : List UInt8}, l.length = l'.length →
      l.flatMap f ++ r = l'.flatMap f ++ r' → l = l' ∧ r = r'
  | [], [], r, r', _, h => ⟨rfl, by simpa using h⟩
  | [], _ :: _, _, _, hlen, _ => by simp at hlen
  | _ :: _, [], _, _, hlen, _ => by simp at hlen
  | a :: l, a' :: l', r, r', hlen, h => by
      rw [List.flatMap_cons, List.flatMap_cons, List.append_assoc, List.append_assoc] at h
      obtain ⟨ha, hrest⟩ := List.append_inj h ((hf a).trans (hf a').symm)
      obtain ⟨hl, hr⟩ := flatMap_append_inj hf hinj (by simpa using hlen) hrest
      exact ⟨by rw [hinj ha, hl], hr⟩

theorem flatMap_inj (hf : ∀ a, (f a).length = w) (hinj : Function.Injective f) (hw : 0 < w)
    {l l' : List α} (h : l.flatMap f = l'.flatMap f) : l = l' := by
  have hlen : l.length = l'.length := by
    have := congrArg List.length h
    rw [length_flatMap_of_width hf, length_flatMap_of_width hf] at this
    exact Nat.eq_of_mul_eq_mul_left hw this
  have happ : l.flatMap f ++ [] = l'.flatMap f ++ [] := by rw [h]
  exact (flatMap_append_inj hf hinj hlen happ).1

/-- **Two record sequences one after the other, without separator**, are determined up to a piece
in the middle that reads as records of either kind. -/
theorem exists_resplit {β : Type*} {g : β → List UInt8} {v : ℕ} (hf : ∀ a, (f a).length = w)
    (hfinj : Function.Injective f) (hg : ∀ b, (g b).length = v) (hginj : Function.Injective g)
    (hv : 0 < v) {l l' : List α} {m m' : List β} (hlen : l'.length ≤ l.length)
    (h : l.flatMap f ++ m.flatMap g = l'.flatMap f ++ m'.flatMap g) :
    ∃ pl ps, l = l' ++ pl ∧ m' = ps ++ m ∧ pl.flatMap f = ps.flatMap g := by
  have hl : l = l.take l'.length ++ l.drop l'.length := (List.take_append_drop _ _).symm
  rw [hl, List.flatMap_append, List.append_assoc] at h
  obtain ⟨htake, hrest⟩ := flatMap_append_inj hf hfinj (by simp [hlen]) h
  have hcount : m.length ≤ m'.length := by
    have := congrArg List.length hrest
    rw [List.length_append, length_flatMap_of_width hg, length_flatMap_of_width hg] at this
    exact Nat.le_of_mul_le_mul_left (by omega) hv
  have hm : m' = m'.take (m'.length - m.length) ++ m'.drop (m'.length - m.length) :=
    (List.take_append_drop _ _).symm
  rw [hm, List.flatMap_append] at hrest
  obtain ⟨hmiddle, htail⟩ := List.append_inj' hrest (by
    rw [length_flatMap_of_width hg, length_flatMap_of_width hg, List.length_drop]
    congr 1
    omega)
  have hdrop := flatMap_inj hg hginj hv htail
  refine ⟨l.drop l'.length, m'.take (m'.length - m.length), ?_, ?_, hmiddle⟩
  · exact hl.trans (congrArg (· ++ _) htake)
  · exact hm.trans (congrArg (_ ++ ·) hdrop.symm)

end Records

end Bytes
