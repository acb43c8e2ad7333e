import Fedb.Lib.ByteBuffer

/-! # The order of byte strings

Keys built to be compared by `memcmp` are ordered as their bytes: core's `<`
on `List UInt8`, lexicographic on unsigned bytes, a proper prefix first. This
module gives what an encoding that preserves an order needs of it:

* the big-endian bytes of numbers of one width compare as the numbers, and
  determine them (`beBytes_lt_beBytes_iff`, `beBytes_inj`);
* strings of one width followed by anything compare by them first
  (`append_lt_append_iff`);
* the complement of big-endian bytes is the bytes of the complement, and a
  flipped top bit adds half the range (`map_xor_beBytes`, `flipTop_beBytes`);
* a proper prefix comes first, and strings padded with zeros compare as the
  strings where the padding differs (`lt_of_prefix`, `lt_of_pad_lt_pad`);
* strings of one width joined compare as the lists of them, and lists compare
  alike under two maps that compare alike (`flatten_lt_flatten_iff`,
  `map_lt_map_iff`).
-/

namespace ByteOrder

open ByteBuffer

/-! ## Bytes -/

set_option maxRecDepth 4000 in
theorem xor_255_of_lt : ∀ n, n < 256 → n ^^^ 255 = 255 - n := by decide

set_option maxRecDepth 4000 in
theorem xor_128_of_lt : ∀ n, n < 256 → n ^^^ 128 = (n + 128) % 256 := by decide

set_option maxRecDepth 4000 in
theorem and_128_of_lt : ∀ n, n < 256 → (n &&& 128 = 0 ↔ n < 128) := by decide

theorem toNat_xor_255 (x : UInt8) : (x ^^^ 255).toNat = 255 - x.toNat := by
  rw [UInt8.toNat_xor]
  exact xor_255_of_lt x.toNat x.toNat_lt

theorem toNat_xor_128 (x : UInt8) : (x ^^^ 128).toNat = (x.toNat + 128) % 256 := by
  rw [UInt8.toNat_xor]
  exact xor_128_of_lt x.toNat x.toNat_lt

/-- The top bit of a byte is clear exactly below `128`. -/
theorem and_128_eq_zero_iff (x : UInt8) : x &&& 128 = 0 ↔ x.toNat < 128 := by
  rw [← and_128_of_lt x.toNat x.toNat_lt, ← UInt8.toNat_inj, UInt8.toNat_and]
  rfl

theorem toNat_ofNat_of_lt {v : Nat} (h : v < 256) : (UInt8.ofNat v).toNat = v := by
  rw [UInt8.toNat_ofNat']
  omega

/-! ## Big-endian numbers -/

/-- The `n` bytes of `v`, most significant first. -/
def beBytes (n v : Nat) : List UInt8 := (leBytes n v).reverse

/-- The top byte of a little-endian number comes last. -/
theorem leBytes_succ_eq_append (n : Nat) :
    ∀ v, leBytes (n + 1) v = leBytes n v ++ [UInt8.ofNat (v / 256 ^ n % 256)] := by
  induction n with
  | zero => intro v; simp [leBytes]
  | succ n ih =>
    intro v
    rw [leBytes, ih (v / 256), leBytes, List.cons_append, Nat.div_div_eq_div_mul, ← pow_succ']

theorem beBytes_succ (n v : Nat) : beBytes (n + 1) v = UInt8.ofNat (v / 256 ^ n % 256) :: beBytes n v := by
  rw [beBytes, leBytes_succ_eq_append, List.reverse_append]
  rfl

@[simp] theorem length_beBytes (n v : Nat) : (beBytes n v).length = n := by
  rw [beBytes, List.length_reverse, length_leBytes]

/-- `n` bytes hold `v` modulo `256 ^ n`. -/
theorem leBytes_mod (n : Nat) : ∀ v, leBytes n (v % 256 ^ n) = leBytes n v := by
  induction n with
  | zero => intro v; rfl
  | succ n ih =>
    intro v
    have hlow : v % 256 ^ (n + 1) % 256 = v % 256 :=
      Nat.mod_mod_of_dvd v (Dvd.intro_left _ (pow_succ 256 n).symm)
    have hhigh : v % 256 ^ (n + 1) / 256 % 256 ^ n = v / 256 % 256 ^ n := by
      rw [pow_succ', Nat.mod_mul_right_div_self, Nat.mod_mod]
    rw [leBytes, leBytes, hlow, ← ih (v % 256 ^ (n + 1) / 256), hhigh, ih]

theorem beBytes_mod (n v : Nat) : beBytes n (v % 256 ^ n) = beBytes n v := by
  rw [beBytes, beBytes, leBytes_mod]

/-- Below `k * m`, numbers compare by their quotient by `m`, then by the rest. -/
theorem lt_iff_div_mod {m : Nat} (hm : 0 < m) (a b : Nat) :
    a < b ↔ a / m < b / m ∨ (a / m = b / m ∧ a % m < b % m) := by
  have ha := Nat.div_add_mod a m
  have hb := Nat.div_add_mod b m
  have ham := Nat.mod_lt a hm
  have hbm := Nat.mod_lt b hm
  constructor
  · intro h
    rcases Nat.lt_or_ge (a / m) (b / m) with hq | hq
    · exact Or.inl hq
    · -- the quotients are equal, so the rests decide
      have hle : a / m ≤ b / m := Nat.div_le_div_right h.le
      have heq : a / m = b / m := Nat.le_antisymm hle hq
      refine Or.inr ⟨heq, ?_⟩
      rw [heq] at ha
      omega
  · rintro (hq | ⟨heq, hr⟩)
    · -- a quotient one step above covers every rest
      have hstep : m * (a / m) + m ≤ m * (b / m) := by
        rw [← Nat.mul_succ]
        exact Nat.mul_le_mul_left m hq
      omega
    · rw [heq] at ha
      omega

/-- Big-endian bytes of one width compare as the numbers. -/
theorem beBytes_lt_beBytes_iff (n : Nat) :
    ∀ {a b : Nat}, a < 256 ^ n → b < 256 ^ n → (beBytes n a < beBytes n b ↔ a < b) := by
  induction n with
  | zero =>
    intro a b ha hb
    simp only [pow_zero, Nat.lt_one_iff] at ha hb
    subst ha hb
    exact ⟨fun h => absurd h (List.lt_irrefl _), fun h => absurd h (Nat.lt_irrefl 0)⟩
  | succ n ih =>
    intro a b ha hb
    have hpos : 0 < 256 ^ n := by positivity
    -- the top byte is the quotient by `256 ^ n`
    have hqa : a / 256 ^ n < 256 := Nat.div_lt_of_lt_mul (by rw [← pow_succ]; exact ha)
    have hqb : b / 256 ^ n < 256 := Nat.div_lt_of_lt_mul (by rw [← pow_succ]; exact hb)
    rw [beBytes_succ, beBytes_succ, ← beBytes_mod n a, ← beBytes_mod n b, List.cons_lt_cons_iff,
      UInt8.lt_iff_toNat_lt, Nat.mod_eq_of_lt hqa, Nat.mod_eq_of_lt hqb, toNat_ofNat_of_lt hqa,
      toNat_ofNat_of_lt hqb, ih (Nat.mod_lt a hpos) (Nat.mod_lt b hpos), lt_iff_div_mod hpos a b,
      ← UInt8.toNat_inj, toNat_ofNat_of_lt hqa, toNat_ofNat_of_lt hqb]

theorem beBytes_inj {n a b : Nat} (ha : a < 256 ^ n) (hb : b < 256 ^ n) (h : beBytes n a = beBytes n b) :
    a = b := by
  rcases Nat.lt_trichotomy a b with hab | hab | hab
  · have := (beBytes_lt_beBytes_iff n ha hb).2 hab
    rw [h] at this
    exact absurd this (List.lt_irrefl _)
  · exact hab
  · have := (beBytes_lt_beBytes_iff n hb ha).2 hab
    rw [h] at this
    exact absurd this (List.lt_irrefl _)

theorem complement_split {P q r : Nat} (hq : q < 256) (hr : r < P) :
    P * 256 - 1 - (P * q + r) = (P - 1 - r) + P * (255 - q) := by
  have hmul : P * q + P * (255 - q) = P * 255 := by
    rw [← Nat.mul_add]
    congr 1
    omega
  omega

/-- Every byte complemented: the complement of the number. -/
theorem map_xor_beBytes (n : Nat) :
    ∀ {v : Nat}, v < 256 ^ n → (beBytes n v).map (· ^^^ 255) = beBytes n (256 ^ n - 1 - v) := by
  induction n with
  | zero => intro v _; rfl
  | succ n ih =>
    intro v hv
    have hpos : 0 < 256 ^ n := by positivity
    have hq : v / 256 ^ n < 256 := Nat.div_lt_of_lt_mul (by rw [← pow_succ]; exact hv)
    have hr := Nat.mod_lt v hpos
    have hlow : 256 ^ n - 1 - v % 256 ^ n < 256 ^ n := by omega
    -- the complement splits into the complement of the rest and of the top byte
    have hsplit : 256 ^ (n + 1) - 1 - v = (256 ^ n - 1 - v % 256 ^ n) + 256 ^ n * (255 - v / 256 ^ n) := by
      rw [pow_succ, ← complement_split hq hr, Nat.div_add_mod]
    have hdiv : (256 ^ (n + 1) - 1 - v) / 256 ^ n = 255 - v / 256 ^ n := by
      rw [hsplit, Nat.add_mul_div_left _ _ hpos, Nat.div_eq_of_lt hlow, Nat.zero_add]
    have hmod : (256 ^ (n + 1) - 1 - v) % 256 ^ n = 256 ^ n - 1 - v % 256 ^ n := by
      rw [hsplit, Nat.add_mul_mod_self_left, Nat.mod_eq_of_lt hlow]
    rw [beBytes_succ, beBytes_succ, List.map_cons, ← beBytes_mod n v, ih hr,
      ← beBytes_mod n (256 ^ (n + 1) - 1 - v), hmod, hdiv]
    congr 1
    rw [← UInt8.toNat_inj, toNat_xor_255, UInt8.toNat_ofNat', UInt8.toNat_ofNat']
    omega

/-- The top bit flipped: half the range added, modulo the range. -/
theorem flipTop_beBytes (n v : Nat) :
    (beBytes (n + 1) v).modifyHead (· ^^^ 128) = beBytes (n + 1) (v + 128 * 256 ^ n) := by
  have hpos : 0 < 256 ^ n := by positivity
  have hrest : (v + 128 * 256 ^ n) % 256 ^ n = v % 256 ^ n := by
    rw [Nat.add_mul_mod_self_right]
  have htop : (v + 128 * 256 ^ n) / 256 ^ n = v / 256 ^ n + 128 := by
    rw [Nat.add_mul_div_right _ _ hpos]
  rw [beBytes_succ, beBytes_succ, List.modifyHead_cons]
  rw [← beBytes_mod n (v + 128 * 256 ^ n), hrest, beBytes_mod, htop]
  congr 1
  rw [← UInt8.toNat_inj, toNat_xor_128, UInt8.toNat_ofNat', UInt8.toNat_ofNat']
  omega

/-- The bytes of `0` are zeros. -/
theorem leBytes_zero (n : Nat) : leBytes n 0 = List.replicate n 0 := by
  induction n with
  | zero => rfl
  | succ n ih => rw [leBytes, Nat.zero_div, ih]; rfl

/-- Little-endian bytes, read back. -/
theorem readLE_leBytes (n v : Nat) : readLE (leBytes n v) 0 n = v % 256 ^ n := by
  have hdrop : (leBytes n v).drop 0 = leBytes n v ++ [] := by rw [List.drop_zero, List.append_nil]
  exact readLE_of_drop hdrop

/-! ## Strings of one width -/

/-- Strings of one width followed by anything compare by them first, then by
what follows. -/
theorem append_lt_append_iff :
    ∀ {a b : List UInt8} (x y : List UInt8), a.length = b.length →
      (a ++ x < b ++ y ↔ a < b ∨ (a = b ∧ x < y))
  | [], [], x, y, _ => by
    simp only [List.nil_append, List.lt_irrefl, false_or, true_and]
  | c :: a, d :: b, x, y, h => by
    rw [List.cons_append, List.cons_append, List.cons_lt_cons_iff, List.cons_lt_cons_iff,
      append_lt_append_iff x y (by simpa using h), List.cons.injEq]
    constructor
    · rintro (hcd | ⟨rfl, hab | ⟨rfl, hxy⟩⟩)
      · exact Or.inl (Or.inl hcd)
      · exact Or.inl (Or.inr ⟨rfl, hab⟩)
      · exact Or.inr ⟨⟨rfl, rfl⟩, hxy⟩
    · rintro ((hcd | ⟨rfl, hab⟩) | ⟨⟨rfl, rfl⟩, hxy⟩)
      · exact Or.inl hcd
      · exact Or.inr ⟨rfl, Or.inl hab⟩
      · exact Or.inr ⟨rfl, Or.inr ⟨rfl, hxy⟩⟩

/-! ## Prefixes and padding -/

/-- A proper prefix comes first. -/
theorem lt_of_prefix : ∀ {a b : List UInt8}, a <+: b → a.length < b.length → a < b
  | [], _ :: _, _, _ => List.nil_lt_cons _ _
  | [], [], _, hlen => absurd hlen (Nat.lt_irrefl 0)
  | _ :: _, [], h, _ => absurd (List.eq_nil_of_prefix_nil h) (List.cons_ne_nil _ _)
  | c :: a, d :: b, h, hlen => by
    obtain ⟨rfl, hab⟩ := List.cons_prefix_cons.1 h
    exact List.cons_lt_cons_iff.2 (Or.inr ⟨rfl, lt_of_prefix hab (by simpa using hlen)⟩)

/-- Nothing of at least `n` bytes is below `n` zeros. -/
theorem not_lt_replicate_zero : ∀ (n : Nat) {w : List UInt8}, n ≤ w.length → ¬w < List.replicate n 0
  | 0, _, _, h => List.not_lt_nil _ h
  | n + 1, [], h, _ => absurd h (by simp)
  | n + 1, c :: w, h, hlt => by
    rw [List.replicate_succ, List.cons_lt_cons_iff] at hlt
    rcases hlt with hc | ⟨-, hw⟩
    · exact absurd hc (by simp [UInt8.lt_iff_toNat_lt])
    · exact not_lt_replicate_zero n (by simpa using h) hw

/-- Strings whose first `n` bytes compare below compare below. -/
theorem lt_of_take_lt_take : ∀ (n : Nat) {s t : List UInt8}, s.take n < t.take n → s < t
  | 0, _, _, h => absurd h (List.lt_irrefl _)
  | _ + 1, [], [], h => absurd h (List.lt_irrefl _)
  | _ + 1, [], _ :: _, _ => List.nil_lt_cons _ _
  | _ + 1, _ :: _, [], h => absurd h (List.not_lt_nil _)
  | n + 1, c :: s, d :: t, h => by
    rw [List.take_succ_cons, List.take_succ_cons, List.cons_lt_cons_iff] at h
    rcases h with hcd | ⟨rfl, hst⟩
    · exact List.cons_lt_cons_iff.2 (Or.inl hcd)
    · exact List.cons_lt_cons_iff.2 (Or.inr ⟨rfl, lt_of_take_lt_take n hst⟩)

/-- `a` padded with zeros to `n` bytes. -/
def pad (n : Nat) (a : List UInt8) : List UInt8 := a ++ List.replicate (n - a.length) 0

theorem pad_cons (n : Nat) (c : UInt8) (a : List UInt8) : pad (n + 1) (c :: a) = c :: pad n a := by
  rw [pad, pad, List.length_cons, Nat.add_sub_add_right, List.cons_append]

@[simp] theorem length_pad {n : Nat} {a : List UInt8} (h : a.length ≤ n) : (pad n a).length = n := by
  rw [pad, List.length_append, List.length_replicate]
  omega

theorem pad_of_length {n : Nat} {a : List UInt8} (h : a.length = n) : pad n a = a := by
  rw [pad, h, Nat.sub_self, List.replicate_zero, List.append_nil]

/-- Padded strings that compare below compare below unpadded. -/
theorem lt_of_pad_lt_pad : ∀ {n : Nat} {a b : List UInt8}, a.length ≤ n → b.length ≤ n →
    pad n a < pad n b → a < b
  | _, [], [], _, _, h => absurd h (List.lt_irrefl _)
  | _, [], _ :: _, _, _, _ => List.nil_lt_cons _ _
  | n, c :: a, [], ha, _, h => by
    -- `[]` pads to zeros, below which nothing of `n` bytes lies
    rw [show pad n [] = List.replicate n 0 by simp [pad]] at h
    exact absurd h (not_lt_replicate_zero n (by rw [length_pad ha]))
  | 0, _ :: _, _ :: _, ha, _, _ => absurd ha (by simp)
  | n + 1, c :: a, d :: b, ha, hb, h => by
    rw [pad_cons, pad_cons, List.cons_lt_cons_iff] at h
    rcases h with hcd | ⟨rfl, hab⟩
    · exact List.cons_lt_cons_iff.2 (Or.inl hcd)
    · exact List.cons_lt_cons_iff.2
        (Or.inr ⟨rfl, lt_of_pad_lt_pad (by simpa using ha) (by simpa using hb) hab⟩)

/-! ## Lists of strings -/

/-- Strings of one width each, joined, compare as the lists of the strings. -/
theorem flatten_lt_flatten_iff : ∀ {as bs : List (List UInt8)},
    List.Forall₂ (fun a b => a.length = b.length) as bs → (as.flatten < bs.flatten ↔ as < bs)
  | [], [], .nil => ⟨fun h => absurd h (List.not_lt_nil _), fun h => absurd h (List.not_lt_nil _)⟩
  | _ :: _, _ :: _, .cons hab h => by
    rw [List.flatten_cons, List.flatten_cons, append_lt_append_iff _ _ hab, flatten_lt_flatten_iff h,
      List.cons_lt_cons_iff]

section Transfer

variable {α β γ : Type} {f : α → β} {g : α → γ}

/-- Two maps that tell the same pairs apart at each position tell the lists apart alike. -/
theorem map_eq_map_iff : ∀ {xs ys : List α},
    List.Forall₂ (fun x y => f x = f y ↔ g x = g y) xs ys → (xs.map f = ys.map f ↔ xs.map g = ys.map g)
  | [], [], .nil => ⟨fun _ => rfl, fun _ => rfl⟩
  | _ :: _, _ :: _, .cons heq h => by
    rw [List.map_cons, List.map_cons, List.map_cons, List.map_cons, List.cons.injEq, List.cons.injEq, heq,
      map_eq_map_iff h]

variable [LT β] [LT γ]

/-- Two maps that compare alike at each position compare lists alike. -/
theorem map_lt_map_iff : ∀ {xs ys : List α},
    List.Forall₂ (fun x y => (f x < f y ↔ g x < g y) ∧ (f x = f y ↔ g x = g y)) xs ys →
      (xs.map f < ys.map f ↔ xs.map g < ys.map g)
  | [], [], .nil => ⟨fun h => absurd h (List.not_lt_nil _), fun h => absurd h (List.not_lt_nil _)⟩
  | _ :: _, _ :: _, .cons ⟨hlt, heq⟩ h => by
    rw [List.map_cons, List.map_cons, List.map_cons, List.map_cons, List.cons_lt_cons_iff,
      List.cons_lt_cons_iff, hlt, heq, map_lt_map_iff h]

end Transfer

end ByteOrder
