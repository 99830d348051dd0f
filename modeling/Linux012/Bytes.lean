/-
Byte-addressed memory: little-endian words, NUL-terminated strings and tables of pointers.

* `getLong`, `putLong` — a word of 32 bits at an address;
* `Reads` — the bytes from an address on;
* `CStr` — a string without the NUL that ends it, and `scan`, which finds that NUL;
* `Vector` — a table of pointers to copies of given strings, with a NULL behind it;
  `vector_of_pointers` makes one from strings that lie one behind the other.
-/
import Mathlib.Algebra.Order.Ring.Nat
import Mathlib.Data.List.TakeWhile

abbrev Bytes := ℕ → UInt8

namespace Bytes

variable {m m' : Bytes} {a b t v : ℕ}

def getLong (m : Bytes) (a : ℕ) : ℕ :=
  (m a).toNat + 2 ^ 8 * (m (a + 1)).toNat + 2 ^ 16 * (m (a + 2)).toNat +
    2 ^ 24 * (m (a + 3)).toNat

def putLong (m : Bytes) (a v : ℕ) : Bytes := fun i =>
  if a ≤ i ∧ i < a + 4 then UInt8.ofNat (v / 256 ^ (i - a)) else m i

theorem putLong_of_lt (h : b < a) : m.putLong a v b = m b := if_neg (by omega)

theorem putLong_of_le (h : a + 4 ≤ b) : m.putLong a v b = m b := if_neg (by omega)

theorem getLong_congr (h : ∀ i < 4, m (a + i) = m' (a + i)) : m.getLong a = m'.getLong a := by
  rw [getLong, getLong, h 1 (by omega), h 2 (by omega), h 3 (by omega)]
  rw [show m a = m' a from h 0 (by omega)]

/-- The four bytes of a word give the word back. -/
theorem getLong_putLong (h : v < 2 ^ 32) : (m.putLong a v).getLong a = v := by
  have hbyte : ∀ i < 4, (m.putLong a v (a + i)).toNat = v / 256 ^ i % 256 := by
    intro i hi
    rw [putLong, if_pos ⟨by omega, by omega⟩, Nat.add_sub_cancel_left]
    exact UInt8.toNat_ofNat'
  have h0 := hbyte 0 (by omega)
  have h1 := hbyte 1 (by omega)
  have h2 := hbyte 2 (by omega)
  have h3 := hbyte 3 (by omega)
  rw [add_zero] at h0
  rw [getLong, h0, h1, h2, h3]
  omega

theorem getLong_putLong_of_ne (h : a + 4 ≤ b ∨ b + 4 ≤ a) :
    (m.putLong a v).getLong b = m.getLong b := by
  apply getLong_congr
  intro i hi
  rcases h with h | h
  · exact putLong_of_le (by omega)
  · exact putLong_of_lt (by omega)

/-- The memory from `a` on is `bs`. -/
def Reads (m : Bytes) : ℕ → List UInt8 → Prop
  | _, [] => True
  | a, b :: bs => m a = b ∧ Reads m (a + 1) bs

theorem reads_append {xs ys : List UInt8} :
    m.Reads a (xs ++ ys) ↔ m.Reads a xs ∧ m.Reads (a + xs.length) ys := by
  induction xs generalizing a with
  | nil => simp only [List.nil_append, Reads, true_and, List.length_nil, add_zero]
  | cons x xs ih =>
    simp only [List.cons_append, Reads, ih, List.length_cons, and_assoc]
    rw [show a + 1 + xs.length = a + (xs.length + 1) by omega]

/-- The same bytes, `k` further up in another memory. -/
theorem Reads.shift {bs : List UInt8} (k : ℕ) (hr : m.Reads a bs)
    (h : ∀ i, a ≤ i → i < a + bs.length → m' (k + i) = m i) : m'.Reads (k + a) bs := by
  induction bs generalizing a with
  | nil => trivial
  | cons b bs ih =>
    rw [List.length_cons] at h
    refine ⟨(h a le_rfl (by omega)).trans hr.1, ih hr.2 fun i hi hi' => ?_⟩
    exact h i (by omega) (by omega)

theorem Reads.congr {bs : List UInt8} (hr : m.Reads a bs)
    (h : ∀ i, a ≤ i → i < a + bs.length → m' i = m i) : m'.Reads a bs := by
  rw [← zero_add a]
  exact hr.shift 0 fun i hi hi' => by rw [zero_add, h i hi hi']

end Bytes

/-- A string; the NUL behind it is not one of its bytes. -/
structure CStr where
  bytes : List UInt8
  nul : 0 ∉ bytes

namespace CStr

/-- The string that starts where these bytes do. -/
def ofBytes (bs : List UInt8) : CStr :=
  ⟨bs.takeWhile (· ≠ 0), fun h => by simpa using List.mem_takeWhile_imp h⟩

/-- The bytes in memory. -/
def image (s : CStr) : List UInt8 := s.bytes ++ [0]

theorem length_image (s : CStr) : s.image.length = s.bytes.length + 1 := List.length_append

/-- The strings one behind the other. -/
def flat (ss : List CStr) : List UInt8 := ss.flatMap image

@[simp] theorem flat_nil : flat [] = [] := rfl

@[simp] theorem flat_cons (s : CStr) (ss : List CStr) : flat (s :: ss) = s.image ++ flat ss := rfl

@[simp] theorem flat_append (ss ts : List CStr) : flat (ss ++ ts) = flat ss ++ flat ts :=
  List.flatMap_append

/-- Every string takes a byte at least. -/
theorem length_le_flat (ss : List CStr) : ss.length ≤ (flat ss).length := by
  induction ss with
  | nil => exact le_rfl
  | cons s ss ih =>
    rw [flat_cons, List.length_append, length_image, List.length_cons]
    omega

/-- Where the strings start. -/
def starts : ℕ → List CStr → List ℕ
  | _, [] => []
  | a, s :: ss => a :: starts (a + s.image.length) ss

theorem length_starts (a : ℕ) (ss : List CStr) : (starts a ss).length = ss.length := by
  induction ss generalizing a with
  | nil => rfl
  | cons s ss ih => exact congrArg (· + 1) (ih _)

end CStr

namespace Bytes

open CStr

variable {m m' : Bytes} {a t : ℕ}

/-- The address behind the first NUL from `a` on, among the next `n` bytes. -/
def scan (m : Bytes) : (n a : ℕ) → Option ℕ
  | 0, _ => none
  | n + 1, a => if m a = 0 then some (a + 1) else scan m n (a + 1)

theorem scan_image {s : CStr} {n : ℕ} (hr : m.Reads a s.image) (hn : s.image.length ≤ n) :
    m.scan n a = some (a + s.image.length) := by
  obtain ⟨bs, hnul⟩ := s
  rw [length_image] at hn ⊢
  rw [image] at hr
  dsimp only at hr hn ⊢
  induction bs generalizing a n with
  | nil =>
    obtain ⟨n, rfl⟩ : ∃ k, n = k + 1 := ⟨n - 1, by rw [List.length_nil] at hn; omega⟩
    rw [scan, if_pos hr.1, List.length_nil, zero_add]
  | cons b bs ih =>
    rw [List.length_cons] at hn
    obtain ⟨n, rfl⟩ : ∃ k, n = k + 1 := ⟨n - 1, by omega⟩
    rw [List.mem_cons, not_or] at hnul
    rw [scan, if_neg (by rw [hr.1]; exact Ne.symm hnul.1), ih hnul.2 hr.2 (by omega),
      List.length_cons, add_assoc, add_comm 1]

/-- The words from `t` on are `ps`. -/
def Pointers (m : Bytes) : ℕ → List ℕ → Prop
  | _, [] => True
  | t, p :: ps => m.getLong t = p ∧ Pointers m (t + 4) ps

theorem Pointers.congr {ps : List ℕ} (hp : m.Pointers t ps)
    (h : ∀ i, t ≤ i → i < t + 4 * ps.length → m' i = m i) : m'.Pointers t ps := by
  induction ps generalizing t with
  | nil => trivial
  | cons p ps ih =>
    rw [List.length_cons] at h
    refine ⟨(getLong_congr fun i hi => h _ (by omega) (by omega)).trans hp.1, ih hp.2 ?_⟩
    intro i hi hi'
    exact h i (by omega) (by omega)

/-- A table of pointers to copies of the strings, with a NULL behind it. -/
def Vector (m : Bytes) : ℕ → List CStr → Prop
  | t, [] => m.getLong t = 0
  | t, s :: ss => m.Reads (m.getLong t) s.image ∧ Vector m (t + 4) ss

/-- Pointers to the starts of strings that lie one behind the other. -/
theorem vector_of_pointers {ss : List CStr} (hp : m.Pointers t (starts a ss))
    (hr : m.Reads a (flat ss)) (h0 : m.getLong (t + 4 * ss.length) = 0) : m.Vector t ss := by
  induction ss generalizing t a with
  | nil => exact h0
  | cons s ss ih =>
    rw [flat_cons, reads_append] at hr
    refine ⟨?_, ih hp.2 hr.2 ?_⟩
    · rw [hp.1]
      exact hr.1
    · rw [List.length_cons] at h0
      rw [← h0, mul_add, mul_one, add_assoc, add_comm 4]

end Bytes
