import Mathlib

/-! # Recursive length encoding

A value is a byte, a string of bytes or a list, after a head with its kind and size in the shortest
form. Decoding reads one value from the front of what is left in the innermost list. A `Codec` has
the two directions for a type and the proof that they invert each other; codecs compose.
-/

namespace Kaia.Foundation.Rlp

open List
open Option (map_eq_some_iff bind_some bind_eq_some_iff map_some getD_some)

/-! ## Numbers -/

def toBytes (n : ℕ) : List UInt8 := ((Nat.digits 256 n).map UInt8.ofNat).reverse

variable (b : List UInt8) (mk : List UInt8 → Item)

def ofBytes : ℕ := Nat.ofDigits 256 (b.reverse.map UInt8.toNat)

theorem map_toNat_ofNat {l : List ℕ} (h : ∀ d ∈ l, d < 256) :
    (l.map UInt8.ofNat).map UInt8.toNat = l := by
  rw [map_map]
  refine (map_congr_left fun d hd => ?_).trans (map_id l)
  exact UInt8.toNat_ofNat_of_lt' (h d hd)

@[simp] theorem ofBytes_toBytes (n : ℕ) : ofBytes (toBytes n) = n := by
  unfold ofBytes toBytes
  rw [reverse_reverse, map_toNat_ofNat fun d hd => Nat.digits_lt_base (by norm_num) hd,
    Nat.ofDigits_digits]

theorem toBytes_ofBytes {b : List UInt8} (h : b.head? ≠ some 0) : toBytes (ofBytes b) = b := by
  have hdigits : Nat.digits 256 (ofBytes b) = b.reverse.map UInt8.toNat := by
    refine Nat.digits_ofDigits 256 (by norm_num) _ (fun d hd => ?_) fun hne hlast => h ?_
    · obtain ⟨x, -, rfl⟩ := mem_map.mp hd
      exact x.toNat_lt
    · rw [getLast_map, getLast_reverse] at hlast
      have hb : b ≠ [] := by rintro rfl; exact hne rfl
      rw [head?_eq_some_head hb]
      exact congrArg some (UInt8.toNat_inj.mp hlast)
  unfold toBytes
  rw [hdigits, map_map]
  have hid : UInt8.ofNat ∘ UInt8.toNat = id := funext fun x => UInt8.ofNat_toNat
  rw [hid, map_id, reverse_reverse]

theorem head?_toBytes (n : ℕ) : (toBytes n).head? ≠ some 0 := by
  unfold toBytes
  rw [head?_reverse, getLast?_map]
  intro h
  obtain ⟨d, hd, hzero⟩ := map_eq_some_iff.mp h
  have hne : Nat.digits 256 n ≠ [] := by rintro hnil; simp [hnil] at hd
  obtain rfl : (Nat.digits 256 n).getLast hne = d := by
    rwa [getLast?_eq_some_getLast hne, Option.some.injEq] at hd
  have hlt := Nat.digits_lt_base (by norm_num : 1 < 256) (getLast_mem hne)
  refine Nat.getLast_digit_ne_zero 256 (Nat.digits_ne_nil_iff_ne_zero.mp hne) ?_
  rw [← UInt8.toNat_ofNat_of_lt' hlt, hzero]
  rfl

theorem length_toBytes_le_iff {n k : ℕ} : (toBytes n).length ≤ k ↔ n < 256 ^ k := by
  unfold toBytes
  rw [length_reverse, length_map]
  exact Nat.digits_length_le_iff (by norm_num) n

theorem ofBytes_append_singleton (x : UInt8) : ofBytes (b ++ [x]) = x.toNat + 256 * ofBytes b := by
  simp [ofBytes, Nat.ofDigits_cons]

def fixedBytes : ℕ → ℕ → List UInt8
  | 0, _ => []
  | n + 1, m => fixedBytes n (m / 256) ++ [UInt8.ofNat (m % 256)]

@[simp] theorem length_fixedBytes (n m : ℕ) : (fixedBytes n m).length = n := by
  induction n generalizing m with
  | zero => rfl
  | succ n ih => simp [fixedBytes, ih]

theorem ofBytes_fixedBytes {n m : ℕ} (h : m < 256 ^ n) : ofBytes (fixedBytes n m) = m := by
  induction n generalizing m with
  | zero => simp at h; subst h; rfl
  | succ n ih =>
    have hdiv : m / 256 < 256 ^ n := by
      rw [Nat.div_lt_iff_lt_mul (by norm_num), ← pow_succ]
      exact h
    rw [fixedBytes, ofBytes_append_singleton, ih hdiv,
      UInt8.toNat_ofNat_of_lt' (Nat.mod_lt m (by norm_num))]
    exact Nat.mod_add_div m 256

theorem fixedBytes_ofBytes :
    ofBytes b < 256 ^ b.length ∧ fixedBytes b.length (ofBytes b) = b := by
  induction b using reverseRecOn with
  | nil => exact ⟨by simp [ofBytes], rfl⟩
  | append_singleton b x ih =>
    have hx := x.toNat_lt
    rw [ofBytes_append_singleton, length_append, length_singleton]
    constructor
    · rw [pow_succ]
      have := ih.1
      omega
    · rw [fixedBytes, Nat.add_mul_div_left _ _ (by norm_num), Nat.add_mul_mod_self_left,
        Nat.div_eq_of_lt hx, Nat.mod_eq_of_lt hx, zero_add, ih.2, UInt8.ofNat_toNat]

/-! ## One value -/

/-- A value whose head has been read: its payload and what kind of value it is. -/
inductive Item
  | byte (b : UInt8)
  | string (payload : List UInt8)
  | list (payload : List UInt8)
  deriving DecidableEq

def takePayload (size : ℕ) (b : List UInt8) : Option (Item × List UInt8) :=
  if size ≤ b.length then some (mk (b.take size), b.drop size) else none

/-- The size is in the next `n` bytes, without leading zeros, if it does not fit in the head. -/
def takeLong (n : ℕ) (b : List UInt8) : Option (Item × List UInt8) :=
  let size := ofBytes (b.take n)
  if b.length < n ∨ b.head? = some 0 ∨ size < 56 then none else takePayload mk size (b.drop n)

/-- Read the value in front. -/
def split : List UInt8 → Option (Item × List UInt8)
  | [] => none
  | t :: b =>
    if t.toNat < 0x80 then some (.byte t, b)
    else if t.toNat < 0xB8 then takePayload .string (t.toNat - 0x80) b
    else if t.toNat < 0xC0 then takeLong .string (t.toNat - 0xB7) b
    else if t.toNat < 0xF8 then takePayload .list (t.toNat - 0xC0) b
    else takeLong .list (t.toNat - 0xF7) b

def head (offset size : ℕ) : Option (List UInt8) :=
  if size < 56 then some [UInt8.ofNat (offset + size)]
  else if size < 2 ^ 64 then
    some (UInt8.ofNat (offset + 55 + (toBytes size).length) :: toBytes size)
  else none

def join : Item → Option (List UInt8)
  | .byte b => if b.toNat < 0x80 then some [b] else none
  | .string payload => (head 0x80 payload.length).map (· ++ payload)
  | .list payload => (head 0xC0 payload.length).map (· ++ payload)

section Item

variable {mk : List UInt8 → Item} {b rest payload e : List UInt8} {i : Item}

theorem takePayload_append (payload rest : List UInt8) :
    takePayload mk payload.length (payload ++ rest) = some (mk payload, rest) := by
  simp [takePayload]

variable {size n offset : ℕ} {t : UInt8}

theorem takePayload_eq_some :
    takePayload mk size b = some (i, rest) ↔
      ∃ payload, i = mk payload ∧ payload.length = size ∧ b = payload ++ rest := by
  constructor
  · intro h
    unfold takePayload at h
    split at h
    · next hle =>
      cases h
      exact ⟨b.take size, rfl, by simpa using hle, (take_append_drop size b).symm⟩
    · cases h
  · rintro ⟨payload, rfl, rfl, rfl⟩
    exact takePayload_append payload rest

theorem takeLong_append (payload rest : List UInt8) (h : 56 ≤ payload.length) :
    takeLong mk (toBytes payload.length).length (toBytes payload.length ++ (payload ++ rest)) =
      some (mk payload, rest) := by
  have hne : toBytes payload.length ≠ [] := by
    intro hnil
    have := ofBytes_toBytes payload.length
    rw [hnil] at this
    have hzero : ofBytes [] = 0 := rfl
    omega
  have hhead : (toBytes payload.length ++ (payload ++ rest)).head? ≠ some 0 := by
    rw [head?_append_of_ne_nil _ hne]
    exact head?_toBytes _
  unfold takeLong
  rw [take_left, drop_left, ofBytes_toBytes, if_neg, takePayload_append]
  rintro (hlt | hzero | hlt)
  · simp at hlt
  · exact hhead hzero
  · omega

theorem takeLong_eq_some (hn : 0 < n) (h : takeLong mk n b = some (i, rest)) :
    ∃ payload, i = mk payload ∧ 56 ≤ payload.length ∧ (toBytes payload.length).length = n ∧
      b = toBytes payload.length ++ (payload ++ rest) := by
  simp only [takeLong] at h
  split at h
  · cases h
  · next hcond =>
    push Not at hcond
    obtain ⟨hlen, hzero, hsize⟩ := hcond
    obtain ⟨payload, rfl, hpayload, hdrop⟩ := takePayload_eq_some.mp h
    have hhead : (b.take n).head? ≠ some 0 := by
      rwa [head?_take, if_neg hn.ne']
    have hbytes : toBytes payload.length = b.take n := by
      rw [hpayload, toBytes_ofBytes hhead]
    refine ⟨payload, rfl, by omega, ?_, ?_⟩
    · rw [hbytes, length_take]
      omega
    · rw [hbytes, ← hdrop, take_append_drop]

theorem length_toBytes_bounds (h : 56 ≤ size) (hlt : size < 2 ^ 64) :
    0 < (toBytes size).length ∧ (toBytes size).length ≤ 8 := by
  constructor
  · by_contra hzero
    have : size < 256 ^ 0 := length_toBytes_le_iff.mp (by omega)
    omega
  · exact length_toBytes_le_iff.mpr (by omega)

theorem toNat_ofNat_head (h : n < 256) : (UInt8.ofNat n).toNat = n :=
  UInt8.toNat_ofNat_of_lt' h

theorem split_join (h : join i = some e) (rest : List UInt8) :
    split (e ++ rest) = some (i, rest) := by
  cases i with
  | byte b =>
    simp only [join] at h
    split at h
    · next hb => cases h; simp [split, hb]
    · cases h
  | string payload | list payload =>
    obtain ⟨hd, hhead, rfl⟩ := map_eq_some_iff.mp h
    unfold head at hhead
    split at hhead
    · next hlt =>
      cases hhead
      rw [append_assoc, singleton_append, split, toNat_ofNat_head (by omega)]
      simp (disch := omega) only [if_neg, if_pos, Nat.add_sub_cancel_left, takePayload_append]
    · split at hhead
      · next hge hlt =>
        cases hhead
        have hsize := length_toBytes_bounds (by omega) hlt
        rw [append_assoc, cons_append, split, toNat_ofNat_head (by omega)]
        simp (disch := omega) only [if_neg, if_pos, Nat.add_sub_cancel_left, takeLong_append]
      · cases hhead

theorem split_of_join (h : join i = some e) : split e = some (i, []) := by
  simpa using split_join h []

theorem head_short (ht : t.toNat = offset + size) (hlt : size < 56) :
    head offset size = some [t] := by
  rw [head, if_pos hlt, ← ht, UInt8.ofNat_toNat]

theorem head_long (ht : t.toNat = offset + 55 + (toBytes size).length) (hge : 56 ≤ size)
    (hlt : (toBytes size).length ≤ 8) : head offset size = some (t :: toBytes size) := by
  have : size < 2 ^ 64 := length_toBytes_le_iff.mp hlt
  rw [head, if_neg (by omega), if_pos this, ← ht, UInt8.ofNat_toNat]

theorem join_split (h : split b = some (i, rest)) : ∃ e, join i = some e ∧ b = e ++ rest := by
  cases b with
  | nil => cases h
  | cons t b =>
    have ht := t.toNat_lt
    rw [split] at h
    split_ifs at h with hbyte hstring hstring' hlist
    · cases h
      exact ⟨[t], by simp [join, hbyte], rfl⟩
    -- strings and lists differ in the offset only
    iterate 2
      · obtain ⟨payload, rfl, hlen, rfl⟩ := takePayload_eq_some.mp h
        exact ⟨[t] ++ payload, by rw [join, head_short (t := t) (by omega) (by omega)]; rfl, rfl⟩
      · obtain ⟨payload, rfl, hge, hlen, rfl⟩ := takeLong_eq_some (by omega) h
        refine ⟨(t :: toBytes payload.length) ++ payload, ?_, by simp⟩
        rw [join, head_long (t := t) (by omega) hge (by omega)]; rfl

end Item

/-! ## Codecs -/

/-- A format for values; the two directions agree on the domain, in which decoding stays. -/
structure Codec (α : Type) where
  encode : α → Option (List UInt8)
  decode : List UInt8 → Option (α × List UInt8)
  Dom : α → Prop
  decode_encode {a : α} {e : List UInt8} (ha : Dom a) (h : encode a = some e)
    (rest : List UInt8) : decode (e ++ rest) = some (a, rest)
  encode_decode {b rest : List UInt8} {a : α} (h : decode b = some (a, rest)) :
    Dom a ∧ ∃ e, encode a = some e ∧ b = e ++ rest

namespace Codec

variable {α β γ : Type}

variable (c : Codec α)

def decodeBytes (b : List UInt8) : Option α :=
  (c.decode b).bind fun (a, rest) => if rest = [] then some a else none

/-- Every value is in the domain. -/
def Total : Prop := ∀ a, c.Dom a

section Laws

variable {c : Codec α} {a a' : α} {b e : List UInt8}

theorem decodeBytes_eq_some : c.decodeBytes b = some a ↔ c.decode b = some (a, []) := by
  unfold decodeBytes
  rcases hdec : c.decode b with _ | ⟨a', rest⟩
  · simp
  · rw [bind_some]
    by_cases hrest : rest = [] <;> simp [hrest]

theorem decode_of_encode (ha : c.Dom a) (h : c.encode a = some e) : c.decode e = some (a, []) := by
  simpa using c.decode_encode ha h []

theorem decodeBytes_encode (ha : c.Dom a) (h : c.encode a = some e) : c.decodeBytes e = some a :=
  decodeBytes_eq_some.mpr (decode_of_encode ha h)

theorem encode_of_decodeBytes (h : c.decodeBytes b = some a) : c.Dom a ∧ c.encode a = some b := by
  obtain ⟨ha, e, he, hb⟩ := c.encode_decode (decodeBytes_eq_some.mp h)
  rw [append_nil] at hb
  exact ⟨ha, hb ▸ he⟩

theorem encode_injective (ha : c.Dom a) (ha' : c.Dom a') (h : c.encode a = some e)
    (h' : c.encode a' = some e) : a = a' :=
  Option.some.inj ((decodeBytes_encode ha h).symm.trans (decodeBytes_encode ha' h'))

end Laws

def item : Codec Item where
  encode := join
  decode := split
  Dom _ := True
  decode_encode _ h rest := split_join h rest
  encode_decode h := ⟨trivial, join_split h⟩

def none : Codec Unit where
  encode _ := some []
  decode b := some ((), b)
  Dom _ := True
  decode_encode _ h rest := by cases h; rfl
  encode_decode h := by cases h; exact ⟨trivial, [], rfl, rfl⟩

/-- Values that stand for those of another type, where the directions agree on the domain. -/
def refineOn (D : β → Prop) (f : α → Option β) (g : β → Option α)
    (hf : ∀ a b, f a = some b → D b ∧ g b = some a)
    (hg : ∀ a b, D b → g b = some a → f a = some b) : Codec β where
  encode b := (g b).bind c.encode
  decode l := (c.decode l).bind fun (a, rest) => (f a).map (·, rest)
  Dom b := D b ∧ ∀ a, g b = some a → c.Dom a
  decode_encode {b e} hb h rest := by
    obtain ⟨a, hga, he⟩ := Option.bind_eq_some_iff.mp h
    rw [c.decode_encode (hb.2 a hga) he rest, Option.bind_some]
    dsimp only
    rw [hg a b hb.1 hga, Option.map_some]
  encode_decode {l rest b} h := by
    obtain ⟨⟨a, rest'⟩, hdec, hmap⟩ := Option.bind_eq_some_iff.mp h
    obtain ⟨b', hfa, heq⟩ := Option.map_eq_some_iff.mp hmap
    cases heq
    obtain ⟨ha, e, he, hl⟩ := c.encode_decode hdec
    obtain ⟨hb, hga⟩ := hf a b hfa
    refine ⟨⟨hb, fun a' ha' => ?_⟩, e, ?_, hl⟩
    · rwa [Option.some.inj (ha'.symm.trans hga)]
    · rw [hga, Option.bind_some, he]

def refine (f : α → Option β) (g : β → Option α)
    (hfg : ∀ a b, f a = some b ↔ g b = some a) : Codec β :=
  c.refineOn (fun _ => True) f g (fun a b h => ⟨trivial, (hfg a b).mp h⟩)
    fun a b _ h => (hfg a b).mpr h

/-- One value after the other. -/
def pair (d : Codec β) : Codec (α × β) where
  encode x := (c.encode x.1).bind fun e => (d.encode x.2).map (e ++ ·)
  decode b := (c.decode b).bind fun (a, rest) => (d.decode rest).map fun (x, rest) => ((a, x), rest)
  Dom x := c.Dom x.1 ∧ d.Dom x.2
  decode_encode {x e} hx h rest := by
    obtain ⟨e₁, h₁, hmap⟩ := Option.bind_eq_some_iff.mp h
    obtain ⟨e₂, h₂, rfl⟩ := Option.map_eq_some_iff.mp hmap
    rw [List.append_assoc, c.decode_encode hx.1 h₁, Option.bind_some]
    dsimp only
    rw [d.decode_encode hx.2 h₂, Option.map_some]
  encode_decode {b rest x} h := by
    obtain ⟨⟨a, rest₁⟩, h₁, hmap⟩ := Option.bind_eq_some_iff.mp h
    obtain ⟨⟨y, rest₂⟩, h₂, heq⟩ := Option.map_eq_some_iff.mp hmap
    cases heq
    obtain ⟨ha, e₁, he₁, rfl⟩ := c.encode_decode h₁
    obtain ⟨hy, e₂, he₂, rfl⟩ := d.encode_decode h₂
    exact ⟨⟨ha, hy⟩, e₁ ++ e₂, by rw [he₁, Option.bind_some, he₂, Option.map_some],
      (List.append_assoc ..).symm⟩

/-- A list whose payload is one value of the given format, and nothing more. -/
def wrap : Codec α where
  encode a := (c.encode a).bind fun payload => join (.list payload)
  decode b := (split b).bind fun
    | (.list payload, rest) => (c.decodeBytes payload).map (·, rest)
    | _ => .none
  Dom := c.Dom
  decode_encode {a e} ha h rest := by
    obtain ⟨payload, hpayload, he⟩ := Option.bind_eq_some_iff.mp h
    rw [split_join he, Option.bind_some]
    dsimp only
    rw [decodeBytes_encode ha hpayload, Option.map_some]
  encode_decode {b rest a} h := by
    obtain ⟨⟨i, rest'⟩, hsplit, hmap⟩ := Option.bind_eq_some_iff.mp h
    cases i with
    | list payload =>
      obtain ⟨a', hdec, heq⟩ := Option.map_eq_some_iff.mp hmap
      cases heq
      obtain ⟨ha, hpayload⟩ := encode_of_decodeBytes hdec
      obtain ⟨e, he, rfl⟩ := join_split hsplit
      exact ⟨ha, e, by rw [hpayload, Option.bind_some, he], rfl⟩
    | _ => cases hmap

/-! ### Sequences of values -/

def encodeMany (encode : α → Option (List UInt8)) : List α → Option (List UInt8)
  | [] => some []
  | a :: as => (encode a).bind fun e => (encodeMany encode as).map (e ++ ·)

def decodeMany (decode : List UInt8 → Option (α × List UInt8)) :
    ℕ → List UInt8 → Option (List α)
  | _, [] => some []
  | 0, _ :: _ => .none
  | n + 1, t :: b => (decode (t :: b)).bind fun (a, rest) => (decodeMany decode n rest).map (a :: ·)

section Many

variable {c : Codec α} {as : List α} {b e : List UInt8}

theorem decodeMany_map {encode : α → Option (List UInt8)}
    {decode : List UInt8 → Option (β × List UInt8)} {f : α → β} (hne : ∀ a, encode a ≠ some [])
    (hdec : ∀ a ∈ as, ∀ e rest, encode a = some e → decode (e ++ rest) = some (f a, rest))
    (h : encodeMany encode as = some e) {n : ℕ} (hn : e.length ≤ n) :
    decodeMany decode n e = some (as.map f) := by
  -- every value takes a byte, so the bound on their number is never reached
  induction as generalizing e n with
  | nil => cases h; cases n <;> rfl
  | cons a as ih =>
    obtain ⟨e₁, h₁, hmap⟩ := bind_eq_some_iff.mp h
    obtain ⟨e₂, h₂, rfl⟩ := map_eq_some_iff.mp hmap
    cases e₁ with
    | nil => exact absurd h₁ (hne a)
    | cons t e₁ =>
      cases n with
      | zero => simp at hn
      | succ n =>
        have hhead := hdec a mem_cons_self (t :: e₁) e₂ h₁
        have htail := ih (fun a' ha' => hdec a' (mem_cons_of_mem a ha')) h₂
          (n := n) (by simp at hn; omega)
        rw [cons_append] at hhead ⊢
        rw [decodeMany, hhead, bind_some]
        dsimp only
        rw [htail, map_some, map_cons]

theorem decodeMany_encodeMany (hne : ∀ a, c.encode a ≠ some []) (hdom : ∀ a ∈ as, c.Dom a)
    (h : encodeMany c.encode as = some e) {n : ℕ} (hn : e.length ≤ n) :
    decodeMany c.decode n e = some as := by
  have hmap := decodeMany_map (f := id) hne
    (fun a ha e rest he => c.decode_encode (hdom a ha) he rest) h hn
  rwa [map_id] at hmap

theorem encodeMany_of_decodeMany {n : ℕ} (h : decodeMany c.decode n b = some as) :
    (∀ a ∈ as, c.Dom a) ∧ encodeMany c.encode as = some b := by
  induction n generalizing b as with
  | zero =>
    cases b with
    | nil => cases h; exact ⟨by simp, rfl⟩
    | cons t b => cases h
  | succ n ih =>
    cases b with
    | nil => cases h; exact ⟨by simp, rfl⟩
    | cons t b =>
      obtain ⟨⟨a, rest⟩, hdec, hmap⟩ := bind_eq_some_iff.mp h
      obtain ⟨as', htail, rfl⟩ := map_eq_some_iff.mp hmap
      obtain ⟨ha, e, he, hb⟩ := c.encode_decode hdec
      obtain ⟨has, hmany⟩ := ih htail
      refine ⟨forall_mem_cons.mpr ⟨ha, has⟩, ?_⟩
      rw [encodeMany, he, bind_some, hmany, map_some, hb]

end Many

/-- A list of values of one format, each of at least one byte. -/
def listOf (hne : ∀ a, c.encode a ≠ some []) : Codec (List α) where
  encode as := (encodeMany c.encode as).bind fun payload => join (.list payload)
  decode b := (split b).bind fun
    | (.list payload, rest) => (decodeMany c.decode payload.length payload).map (·, rest)
    | _ => .none
  Dom as := ∀ a ∈ as, c.Dom a
  decode_encode {as e} has h rest := by
    obtain ⟨payload, hpayload, he⟩ := Option.bind_eq_some_iff.mp h
    rw [split_join he, Option.bind_some]
    dsimp only
    rw [decodeMany_encodeMany hne has hpayload le_rfl, Option.map_some]
  encode_decode {b rest as} h := by
    obtain ⟨⟨i, rest'⟩, hsplit, hmap⟩ := Option.bind_eq_some_iff.mp h
    cases i with
    | list payload =>
      obtain ⟨as', hdec, heq⟩ := Option.map_eq_some_iff.mp hmap
      cases heq
      obtain ⟨has, hpayload⟩ := encodeMany_of_decodeMany hdec
      obtain ⟨e, he, rfl⟩ := join_split hsplit
      exact ⟨has, e, by rw [hpayload, Option.bind_some, he], rfl⟩
    | _ => cases hmap

/-! ### Strings and numbers -/

def ofString : Item → Option (List UInt8)
  | .byte b => if b.toNat < 0x80 then some [b] else .none
  | .string [b] => if b.toNat < 0x80 then .none else some [b]
  | .string payload => some payload
  | .list _ => .none

def toString : List UInt8 → Option Item
  | [b] => if b.toNat < 0x80 then some (.byte b) else some (.string [b])
  | payload => some (.string payload)

theorem ofString_eq_some (i : Item) (b : List UInt8) :
    ofString i = some b ↔ toString b = some i := by
  constructor
  · intro h
    unfold ofString at h
    split at h
    · split at h <;> cases h
      next hb => simp [toString, hb]
    · split at h <;> cases h
      next hb => simp [toString, hb]
    · next hne =>
      cases h
      unfold toString
      split
      · exact absurd rfl (hne _)
      · rfl
    · cases h
  · intro h
    unfold toString at h
    split at h
    · split at h <;> cases h
      · next hb => simp [ofString, hb]
      · next hb => simp [ofString, hb]
    · next hne =>
      cases h
      unfold ofString
      split
      · next heq => cases heq
      · next heq => cases heq; exact absurd rfl (hne _)
      · next heq => cases heq; rfl
      · next heq => cases heq

def bytes : Codec (List UInt8) := item.refine ofString toString ofString_eq_some

/-- A number without leading zeros. -/
def bigInt : Codec ℕ :=
  bytes.refine (fun b => if b.head? = some 0 then .none else some (ofBytes b))
    (fun n => some (toBytes n)) fun b n => by
      constructor
      · intro h
        split at h
        · cases h
        · next hb => cases h; rw [toBytes_ofBytes hb]
      · intro h
        cases h
        rw [if_neg (head?_toBytes n), ofBytes_toBytes]

def filter (p : α → Bool) : Codec α :=
  c.refine (fun a => if p a then some a else .none) (fun a => if p a then some a else .none)
    fun a b => by
      by_cases ha : p a = true <;> by_cases hb : p b = true <;> simp [ha, hb] <;> grind

def uint (n : ℕ) : Codec ℕ := bigInt.filter (· < 256 ^ n)

/-- A number that has an encoding when it is not negative. -/
def int : Codec ℤ :=
  bigInt.refine (fun n => some (n : ℤ)) (fun z => if 0 ≤ z then some z.toNat else .none)
    fun n z => by
      constructor
      · rintro ⟨⟩
        simp
      · intro h
        split at h
        · next hz => cases h; rw [Int.toNat_of_nonneg hz]
        · cases h

def bool : Codec Bool :=
  (uint 1).refine (fun n => if n = 0 then some false else if n = 1 then some true else .none)
    (fun b => some (if b then 1 else 0)) fun n b => by
      cases b <;> simp <;> grind

variable {n : ℕ} {rest : List UInt8}

theorem ofNat_ofBytes_eq_some {w : ℕ} (hw : w = 8 * n) (b : List UInt8) (v : BitVec w) :
    (if b.length = n then some (BitVec.ofNat w (ofBytes b)) else .none) = some v ↔
      some (fixedBytes n v.toNat) = some b := by
  have hpow : 2 ^ w = 256 ^ n := by rw [hw, pow_mul]; norm_num
  constructor
  · intro h
    split at h
    · next hlen =>
      cases h
      obtain ⟨hlt, hfixed⟩ := fixedBytes_ofBytes b
      rw [hlen] at hlt hfixed
      rw [BitVec.toNat_ofNat, hpow, Nat.mod_eq_of_lt hlt, hfixed]
    · cases h
  · intro h
    cases h
    rw [if_pos (length_fixedBytes _ _), ofBytes_fixedBytes (hpow ▸ v.isLt),
      BitVec.ofNat_toNat, BitVec.setWidth_eq]

def array (w n : ℕ) (hw : w = 8 * n) : Codec (BitVec w) :=
  bytes.refine (fun b => if b.length = n then some (BitVec.ofNat w (ofBytes b)) else .none)
    (fun v => some (fixedBytes n v.toNat)) (ofNat_ofBytes_eq_some hw)

variable (d : Codec β) (a : α) (b : β) {f : α → Option β} {g : β → Option α}

theorem encode_refine (hfg : ∀ a b, f a = some b ↔ g b = some a) :
    (c.refine f g hfg).encode b = (g b).bind c.encode := rfl

theorem decode_refine (hfg : ∀ a b, f a = some b ↔ g b = some a) (l : List UInt8) :
    (c.refine f g hfg).decode l = (c.decode l).bind fun (a, rest) => (f a).map (·, rest) := rfl

theorem encode_pair :
    (c.pair d).encode (a, b) = (c.encode a).bind fun e => (d.encode b).map (e ++ ·) := rfl

variable {c d a b} in
theorem encode_pair_eq_none (hb : d.encode b = .none) : (c.pair d).encode (a, b) = .none := by
  rw [encode_pair, hb]
  cases c.encode a <;> rfl

theorem encode_wrap : c.wrap.encode a = (c.encode a).bind fun payload => join (.list payload) := rfl

/-! ### A stream after a failed read

Most reads that fail leave the stream at the value in front. A number of the right size that
is not canonical has been consumed when this is found out.
-/

/-- Read a number of at most the given number of bytes. -/
def readUint (n : ℕ) (b : List UInt8) : Option ℕ × List UInt8 :=
  match split b with
  | some (.byte t, rest) => if t = 0 then (.none, b) else (some t.toNat, rest)
  | some (.string payload, rest) =>
    if n < payload.length then (.none, b)
    else
      match payload with
      | [] => (some 0, rest)
      | t :: p =>
        if t = 0 ∨ (p = [] ∧ t.toNat < 0x80) then (.none, rest)
        else (some (ofBytes (t :: p)), rest)
  | _ => (.none, b)

theorem decode_bytes (b : List UInt8) :
    bytes.decode b = (split b).bind fun (i, rest) => (ofString i).map (·, rest) := rfl

theorem decode_uint (n : ℕ) (b : List UInt8) : (uint n).decode b =
    (bytes.decode b).bind fun (s, rest) =>
      if s.head? = some 0 ∨ 256 ^ n ≤ ofBytes s then .none else some (ofBytes s, rest) := by
  rw [uint, filter, decode_refine, bigInt, decode_refine]
  rcases bytes.decode b with _ | ⟨s, rest⟩
  · rfl
  · by_cases hzero : s.head? = some 0
    · simp [hzero]
    · by_cases hlt : ofBytes s < 256 ^ n
      · simp [hzero, hlt, Nat.not_le.mpr hlt]
      · simp [hzero, hlt, Nat.le_of_not_lt hlt]

theorem encode_uint (n k : ℕ) :
    (uint n).encode k = if k < 256 ^ n then bytes.encode (toBytes k) else .none := by
  rw [uint, filter, encode_refine]
  by_cases hk : k < 256 ^ n
  · rw [if_pos (by simpa using hk), if_pos hk]
    rfl
  · rw [if_neg (by simpa using hk), if_neg hk]
    rfl

theorem ofBytes_singleton (t : UInt8) : ofBytes [t] = t.toNat := by simp [ofBytes]

theorem readUint_eq_some (hn : 0 < n) {b : List UInt8} {k : ℕ} :
    readUint n b = (some k, rest) ↔ (uint n).decode b = some (k, rest) := by
  have hpow : 256 ≤ 256 ^ n := Nat.le_self_pow hn.ne' 256
  rw [decode_uint, decode_bytes, readUint]
  rcases hsplit : split b with _ | ⟨i, rest'⟩
  · simp
  · cases i with
    | byte t =>
      obtain ⟨e, he, -⟩ := join_split hsplit
      have ht : t.toNat < 0x80 := by
        by_contra hge
        simp [join, hge] at he
      have hle : ¬ 256 ^ n ≤ t.toNat := by omega
      by_cases hzero : t = 0 <;> simp [ofString, ht, ofBytes_singleton, hzero, hle, Prod.ext_iff]
    | string payload =>
      cases payload with
      | nil =>
        have hzero : ofBytes [] = 0 := rfl
        simp [ofString, hzero, Prod.ext_iff]
      | cons t p =>
        -- a string without leading zeros is as long as its number is large
        have hlen (ht : t ≠ 0) : 256 ^ n ≤ ofBytes (t :: p) ↔ n ≤ p.length := by
          have hbytes := toBytes_ofBytes (b := t :: p) (by simpa using ht)
          have hiff := length_toBytes_le_iff (n := ofBytes (t :: p)) (k := n)
          rw [hbytes, length_cons] at hiff
          omega
        by_cases hsmall : p = [] ∧ t.toNat < 0x80
        · obtain ⟨rfl, ht⟩ := hsmall
          have hle : ¬ n < 1 := by omega
          simp [ofString, ht, hle]
        · have hstring : ofString (.string (t :: p)) = some (t :: p) := by
            unfold ofString
            split
            · next heq => cases heq
            · next heq =>
              cases heq
              rw [if_neg fun ht => hsmall ⟨rfl, ht⟩]
            · next heq => cases heq; rfl
            · next heq => cases heq
          dsimp only [bind_some]
          rw [hstring]
          by_cases hle : n ≤ p.length <;> rcases eq_or_ne t 0 with rfl | hzero
          · simp [hle]
          · simp [hle, (hlen hzero).mpr hle]
          · simp [hle]
          · simp [hle, (hlen hzero).not.mpr hle, hzero, hsmall, Prod.ext_iff]
    | list payload => simp [ofString]

theorem readUint_eq_none (hn : n < 56) {b : List UInt8} (h : readUint n b = (.none, rest)) :
    rest = b ∨ ∃ (t : UInt8) (payload : List UInt8),
      b = t :: (payload ++ rest) ∧ 0x80 < t.toNat ∧ t.toNat ≤ 0x80 + n := by
  unfold readUint at h
  split at h
  · split at h
    · cases h; exact .inl rfl
    · cases h
  · next payload rest' hsplit =>
    split at h
    · cases h; exact .inl rfl
    · next hle =>
      cases payload with
      | nil => cases h
      | cons t p =>
        dsimp only at h
        split at h
        · cases h
          obtain ⟨e, he, rfl⟩ := join_split hsplit
          obtain ⟨hd, hhead, rfl⟩ := map_eq_some_iff.mp he
          rw [head, if_pos (by omega)] at hhead
          cases hhead
          have htoNat : (UInt8.ofNat (0x80 + (t :: p).length)).toNat = 0x80 + (t :: p).length :=
            toNat_ofNat_head (by omega)
          refine .inr ⟨UInt8.ofNat (0x80 + (t :: p).length), t :: p, by simp, ?_, ?_⟩
          · rw [htoNat, length_cons]
            omega
          · rw [htoNat]
            omega
        · cases h
  · cases h; exact .inl rfl

/-! ### Domains -/

section Total

variable {c : Codec α} {d : Codec β}

theorem total_refine (hc : c.Total) (hfg : ∀ a b, f a = some b ↔ g b = some a) :
    (c.refine f g hfg).Total :=
  fun _ => ⟨trivial, fun a _ => hc a⟩

theorem total_bytes : bytes.Total := total_refine (fun _ => trivial) _

theorem total_bigInt : bigInt.Total := total_refine total_bytes _

theorem total_int : int.Total := total_refine total_bigInt _

theorem total_filter (hc : c.Total) (p : α → Bool) : (c.filter p).Total := total_refine hc _

theorem total_uint (n : ℕ) : (uint n).Total := total_filter total_bigInt _

theorem total_bool : bool.Total := total_refine (total_uint 1) _

theorem total_array (w n : ℕ) (hw : w = 8 * n) : (array w n hw).Total := total_refine total_bytes _

end Total

/-! ### Encodings have at least one byte -/

section Nonempty

variable {c : Codec α} {d : Codec β}

theorem join_ne_nil (i : Item) : join i ≠ some [] := by
  intro h
  have := split_join h []
  cases this

theorem refineOn_ne_nil (hc : ∀ a, c.encode a ≠ some []) {D : β → Prop}
    {hf : ∀ a b, f a = some b → D b ∧ g b = some a} {hg : ∀ a b, D b → g b = some a → f a = some b}
    (b : β) : (c.refineOn D f g hf hg).encode b ≠ some [] := by
  intro h
  obtain ⟨a, -, ha⟩ := bind_eq_some_iff.mp h
  exact hc a ha

theorem bytes_ne_nil (b : List UInt8) : bytes.encode b ≠ some [] := by
  unfold bytes refine
  exact refineOn_ne_nil join_ne_nil b

theorem bigInt_ne_nil (n : ℕ) : bigInt.encode n ≠ some [] := by
  unfold bigInt refine
  exact refineOn_ne_nil bytes_ne_nil n

theorem uint_ne_nil (n m : ℕ) : (uint n).encode m ≠ some [] := by
  unfold uint filter refine
  exact refineOn_ne_nil bigInt_ne_nil m

theorem array_ne_nil (w n : ℕ) (hw : w = 8 * n) (v : BitVec w) :
    (array w n hw).encode v ≠ some [] := by
  unfold array refine
  exact refineOn_ne_nil bytes_ne_nil v

theorem wrap_ne_nil (a : α) : c.wrap.encode a ≠ some [] := by
  intro h
  obtain ⟨payload, -, hjoin⟩ := bind_eq_some_iff.mp h
  exact join_ne_nil _ hjoin

end Nonempty

/-! ### Sizes -/

section Length

variable {c : Codec α} {as : List α} {a : α} {b payload e : List UInt8}

theorem length_le_of_join_list (h : join (.list payload) = some e) : payload.length ≤ e.length := by
  obtain ⟨hd, -, rfl⟩ := map_eq_some_iff.mp h
  simp

theorem length_lt_of_join_list (h : join (.list payload) = some e) : payload.length < 2 ^ 64 := by
  obtain ⟨hd, hhead, -⟩ := map_eq_some_iff.mp h
  unfold head at hhead
  split at hhead
  · omega
  · split at hhead
    · assumption
    · cases hhead

theorem length_le_of_bytes (h : bytes.encode b = some e) : b.length ≤ e.length := by
  obtain ⟨i, hi, hjoin⟩ := bind_eq_some_iff.mp h
  unfold toString at hi
  split at hi
  · have : e ≠ [] := fun hnil => join_ne_nil i (hnil ▸ hjoin)
    exact length_pos_of_ne_nil this
  · cases hi
    obtain ⟨hd, -, rfl⟩ := map_eq_some_iff.mp hjoin
    simp

theorem encodeMany_mem (h : encodeMany c.encode as = some e) (ha : a ∈ as) :
    ∃ e', c.encode a = some e' ∧ e'.length ≤ e.length := by
  induction as generalizing e with
  | nil => cases ha
  | cons a' as ih =>
    obtain ⟨e₁, h₁, hmap⟩ := bind_eq_some_iff.mp h
    obtain ⟨e₂, h₂, rfl⟩ := map_eq_some_iff.mp hmap
    cases ha with
    | head => exact ⟨e₁, h₁, by simp⟩
    | tail _ ha =>
      obtain ⟨e', he', hlen⟩ := ih h₂ ha
      exact ⟨e', he', by simp; omega⟩

theorem listOf_mem {hne : ∀ a, c.encode a ≠ some []} (h : (c.listOf hne).encode as = some e)
    (ha : a ∈ as) : ∃ e', c.encode a = some e' ∧ e'.length ≤ e.length := by
  obtain ⟨payload, hmany, hjoin⟩ := bind_eq_some_iff.mp h
  obtain ⟨e', he', hlen⟩ := encodeMany_mem hmany ha
  exact ⟨e', he', hlen.trans (length_le_of_join_list hjoin)⟩

end Length

/-- The value has an encoding of at most the given number of bytes. -/
def Sized (a : α) (n : ℕ) : Prop := ∃ e, c.encode a = some e ∧ e.length ≤ n

variable {c : Codec α} {d : Codec β} {m : ℕ}

theorem head_sized (offset : ℕ) {size : ℕ} (h : size < 2 ^ 64) :
    ∃ e, head offset size = some e ∧ e.length ≤ 9 := by
  unfold head
  split
  · exact ⟨_, rfl, by simp⟩
  · next hge =>
    have := length_toBytes_bounds (show 56 ≤ size by omega) h
    exact ⟨_, rfl, by simp; omega⟩

theorem join_list_sized (payload : List UInt8) (h : payload.length < 2 ^ 64) :
    ∃ e, join (.list payload) = some e ∧ e.length ≤ payload.length + 9 := by
  obtain ⟨hd, hhead, hlen⟩ := head_sized 0xC0 h
  exact ⟨hd ++ payload, by rw [join, hhead, map_some], by simp; omega⟩

theorem sized_bytes {b : List UInt8} (h : b.length < 2 ^ 64) : bytes.Sized b (b.length + 9) := by
  obtain ⟨hd, hhead, hlen⟩ := head_sized 0x80 h
  have hstring : join (.string b) = some (hd ++ b) := by rw [join, hhead, map_some]
  show ∃ e, (toString b).bind join = some e ∧ _
  unfold toString
  split
  · next x =>
    split
    · next hx => exact ⟨[x], by simp [join, hx], by simp⟩
    · exact ⟨hd ++ [x], hstring, by simp; omega⟩
  · exact ⟨hd ++ b, hstring, by simp; omega⟩

variable {a : α} {k : ℕ}

theorem Sized.mono (h : c.Sized a n) (hle : n ≤ m) : c.Sized a m := by
  obtain ⟨e, he, hlen⟩ := h
  exact ⟨e, he, hlen.trans hle⟩

theorem Sized.refineOn {D : β → Prop} {hf : ∀ a b, f a = some b → D b ∧ g b = some a}
    {hg : ∀ a b, D b → g b = some a → f a = some b} {b : β} (h : c.Sized a n) (hb : g b = some a) :
    (c.refineOn D f g hf hg).Sized b n := by
  obtain ⟨e, he, hlen⟩ := h
  exact ⟨e, by simp [Codec.refineOn, hb, he], hlen⟩

theorem Sized.pair {b : β} (ha : c.Sized a n) (hb : d.Sized b m) :
    (c.pair d).Sized (a, b) (n + m) := by
  obtain ⟨e₁, h₁, hlen₁⟩ := ha
  obtain ⟨e₂, h₂, hlen₂⟩ := hb
  exact ⟨e₁ ++ e₂, by rw [encode_pair, h₁, bind_some, h₂, map_some],
    by rw [length_append]; omega⟩

theorem Sized.wrap (h : c.Sized a n) (hn : n < 2 ^ 64) : c.wrap.Sized a (n + 9) := by
  obtain ⟨payload, hpayload, hlen⟩ := h
  obtain ⟨e, he, hlen'⟩ := join_list_sized payload (by omega)
  exact ⟨e, by rw [encode_wrap, hpayload, bind_some, he], by omega⟩

theorem Sized.listOf {hne : ∀ a, c.encode a ≠ some []} {as : List α}
    (h : ∀ a ∈ as, c.Sized a n) (hn : as.length * n < 2 ^ 64) :
    (c.listOf hne).Sized as (as.length * n + 9) := by
  have hmany : ∃ e, encodeMany c.encode as = some e ∧ e.length ≤ as.length * n := by
    clear hn
    induction as with
    | nil => exact ⟨[], rfl, by simp⟩
    | cons a as ih =>
      obtain ⟨e₁, h₁, hlen₁⟩ := h a mem_cons_self
      obtain ⟨e₂, h₂, hlen₂⟩ := ih fun a' ha' => h a' (mem_cons_of_mem a ha')
      refine ⟨e₁ ++ e₂, by rw [encodeMany, h₁, bind_some, h₂, map_some], ?_⟩
      rw [length_append, length_cons, Nat.succ_mul]
      omega
  obtain ⟨payload, hpayload, hlen⟩ := hmany
  obtain ⟨e, he, hlen'⟩ := join_list_sized payload (by omega)
  exact ⟨e, by simp [Codec.listOf, hpayload, he], by omega⟩

theorem sized_bigInt (h : (toBytes k).length < 2 ^ 64) :
    bigInt.Sized k ((toBytes k).length + 9) := by
  unfold bigInt refine
  exact (sized_bytes h).refineOn rfl

theorem sized_int {z : ℤ} (hz : 0 ≤ z) (h : (toBytes z.toNat).length < 2 ^ 64) :
    int.Sized z ((toBytes z.toNat).length + 9) := by
  unfold int refine
  exact (sized_bigInt h).refineOn (if_pos hz)

theorem sized_uint (hn : n ≤ 8) (h : k < 256 ^ n) : (uint n).Sized k (n + 9) := by
  have hlen := length_toBytes_le_iff.mpr h
  unfold uint filter refine
  exact ((sized_bigInt (k := k) (by omega)).mono (by omega)).refineOn (by simp [h])

theorem sized_bool (b : Bool) : bool.Sized b 10 := by
  unfold bool refine
  exact (sized_uint (n := 1) (by norm_num) (by cases b <;> decide)).refineOn rfl

theorem sized_array {w : ℕ} (hw : w = 8 * n) (hn : n < 2 ^ 64) (v : BitVec w) :
    (array w n hw).Sized v (n + 9) := by
  have hlen := length_fixedBytes n v.toNat
  unfold array refine
  exact ((sized_bytes (by omega)).mono (by omega)).refineOn rfl

end Codec

/-! ### Writers

An encoder buffer writes strings and lists of any size that fits in memory.
-/

def writeBytes : List UInt8 := (Codec.bytes.encode b).getD []

def writeList (payload : List UInt8) : List UInt8 := (join (.list payload)).getD []

variable {b payload : List UInt8}

theorem encode_bytes_eq (h : b.length < 2 ^ 64) : Codec.bytes.encode b = some (writeBytes b) := by
  obtain ⟨e, he, -⟩ := Codec.sized_bytes h
  rw [writeBytes, he, getD_some]

theorem join_list_eq (h : payload.length < 2 ^ 64) :
    join (.list payload) = some (writeList payload) := by
  obtain ⟨e, he, -⟩ := Codec.join_list_sized payload h
  rw [writeList, he, getD_some]

theorem decode_writeBytes (h : b.length < 2 ^ 64) (rest : List UInt8) :
    Codec.bytes.decode (writeBytes b ++ rest) = some (b, rest) :=
  Codec.bytes.decode_encode (Codec.total_bytes b) (encode_bytes_eq h) rest

theorem split_writeList (h : payload.length < 2 ^ 64) (rest : List UInt8) :
    split (writeList payload ++ rest) = some (.list payload, rest) :=
  split_join (join_list_eq h) rest

def headSize (size : ℕ) : ℕ := if size < 56 then 1 else (toBytes size).length + 1

theorem length_head {offset size : ℕ} {hd : List UInt8} (h : head offset size = some hd) :
    hd.length = headSize size := by
  unfold head at h
  unfold headSize
  split at h
  · next hlt => cases h; rw [if_pos hlt]; rfl
  · next hge =>
    split at h
    · cases h; rw [if_neg hge]; rfl
    · cases h

theorem writeBytes_ne_nil (h : b.length < 2 ^ 64) : writeBytes b ≠ [] := fun hnil =>
  Codec.bytes_ne_nil b (hnil ▸ encode_bytes_eq h)

end Kaia.Foundation.Rlp
