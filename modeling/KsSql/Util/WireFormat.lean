import KsSql.Util.LittleEndian

/-!
# Fixed-width wire formats

The default format of bincode 1.3: integers are little-endian words of fixed width, the variants of an
enumeration are numbered by a `u32`, an option has a byte in front, and a vector has its length in front
as a `u64`. A decoder takes a value off the front of a byte string and leaves the rest.

`Reads dec enc a` says that `dec` reads `a` back off `enc`, whatever stands behind. There is one rule for
each way to build an encoding; what is built by appending encodings is read by reading them in order.
`Gives dec P` says that whatever `dec` takes off a byte string satisfies `P`.
-/

namespace KsSql

/-- Take a value off the front of a byte string. -/
abbrev Decoder (α : Type) := Bytes → Option (α × Bytes)

namespace Decoder

variable {α β : Type}

/-- A word of `w` bytes. -/
def word (w : Nat) : Decoder Nat := fun l ↦
  if w ≤ l.length then some (ofLe (l.take w), l.drop w) else none

/-- A byte. -/
def byte : Decoder UInt8
  | [] => none
  | b :: l => some (b, l)

/-- A number of values, one behind the other. -/
def replicate (dec : Decoder α) : Nat → Decoder (List α)
  | 0, l => some ([], l)
  | n + 1, l => do
    let (a, l) ← dec l
    let (as, l) ← replicate dec n l
    pure (a :: as, l)

/-- A vector: its length, and its values. -/
def vec (dec : Decoder α) : Decoder (List α) := fun l ↦ do
  let (n, l) ← word 8 l
  replicate dec n l

/-- A byte string, which is a vector of bytes. -/
def byteString : Decoder Bytes := vec byte

/-- An optional value. -/
def option (dec : Decoder α) : Decoder (Option α) := fun l ↦ do
  let (tag, l) ← byte l
  if tag = 0 then pure (none, l)
  else if tag = 1 then do
    let (a, l) ← dec l
    pure (some a, l)
  else none

end Decoder

namespace Encode

variable {α : Type}

/-- The encoding of a vector. -/
def vec (enc : α → Bytes) (l : List α) : Bytes := u64le l.length ++ l.flatMap enc

/-- The encoding of a byte string. -/
def byteString : Bytes → Bytes := vec fun b ↦ [b]

/-- The encoding of an optional value. -/
def option (enc : α → Bytes) : Option α → Bytes
  | none => [0]
  | some a => 1 :: enc a

@[simp] theorem length_vec (enc : α → Bytes) (l : List α) :
    (vec enc l).length = 8 + (l.map fun a ↦ (enc a).length).sum := by
  rw [vec, List.length_append, u64le, length_toLe, List.length_flatMap]

@[simp] theorem length_byteString (b : Bytes) : (byteString b).length = 8 + b.length := by
  rw [byteString, length_vec]
  simp

end Encode

/-- The decoder reads the value back off the encoding. -/
def Reads {α : Type} (dec : Decoder α) (enc : Bytes) (a : α) : Prop :=
  ∀ rest, dec (enc ++ rest) = some (a, rest)

namespace Reads

variable {α β : Type} {dec : Decoder α}

/-- What is read goes on to the rest of the decoder. -/
theorem bind {enc : Bytes} {a : α} (h : Reads dec enc a) (rest : Bytes) (f : α × Bytes → Option β) :
    (dec (enc ++ rest) >>= f) = f (a, rest) := by
  rw [h]
  rfl

theorem word {w n : Nat} (h : n < 256 ^ w) : Reads (Decoder.word w) (toLe w n) n := by
  intro rest
  rw [Decoder.word, if_pos (by rw [List.length_append, length_toLe]; omega),
    List.take_left' (length_toLe w n), List.drop_left' (length_toLe w n), ofLe_toLe,
    Nat.mod_eq_of_lt h]

theorem u32 {n : Nat} (h : n < 2 ^ 32) : Reads (Decoder.word 4) (u32le n) n :=
  word (by norm_num at h ⊢; exact h)

theorem u64 {n : Nat} (h : n < 2 ^ 64) : Reads (Decoder.word 8) (u64le n) n :=
  word (by norm_num at h ⊢; exact h)

theorem byte (b : UInt8) : Reads Decoder.byte [b] b := fun _ ↦ rfl

/-- Values one behind the other are read one after the other. -/
theorem replicate {enc : α → Bytes} : ∀ {l : List α}, (∀ a ∈ l, Reads dec (enc a) a) →
    Reads (Decoder.replicate dec l.length) (l.flatMap enc) l
  | [], _ => fun _ ↦ rfl
  | a :: l, h => fun rest ↦ by
    have hhead : Reads dec (enc a) a := h a List.mem_cons_self
    have htail := replicate fun b hb ↦ h b (List.mem_cons_of_mem a hb)
    rw [List.length_cons, List.flatMap_cons, List.append_assoc, Decoder.replicate, hhead.bind]
    dsimp only
    rw [htail.bind]
    rfl

theorem vec {enc : α → Bytes} {l : List α} (hlength : l.length < 2 ^ 64)
    (h : ∀ a ∈ l, Reads dec (enc a) a) : Reads (Decoder.vec dec) (Encode.vec enc l) l := by
  intro rest
  rw [Encode.vec, List.append_assoc, Decoder.vec, (u64 hlength).bind]
  exact replicate h rest

theorem byteString {b : Bytes} (hlength : b.length < 2 ^ 64) :
    Reads Decoder.byteString (Encode.byteString b) b :=
  vec hlength fun c _ ↦ byte c

theorem option {enc : α → Bytes} {o : Option α} (h : ∀ a ∈ o, Reads dec (enc a) a) :
    Reads (Decoder.option dec) (Encode.option enc o) o := by
  intro rest
  rcases o with - | a
  · rfl
  · have ha : Reads dec (enc a) a := h a rfl
    show (dec (enc a ++ rest) >>= fun x ↦ pure (some x.1, x.2)) = _
    rw [ha.bind]
    rfl

end Reads

/-- Whatever the decoder takes off a byte string satisfies `P`. -/
def Gives {α : Type} (dec : Decoder α) (P : α → Prop) : Prop :=
  ∀ l a rest, dec l = some (a, rest) → P a

namespace Gives

variable {α : Type} {dec : Decoder α} {P : α → Prop}

theorem word (w : Nat) : Gives (Decoder.word w) fun n ↦ n < 256 ^ w := by
  intro l n rest h
  rw [Decoder.word] at h
  split at h
  · rename_i hw
    obtain ⟨rfl, -⟩ := Prod.ext_iff.1 (Option.some.inj h)
    have hlt := ofLe_lt (l.take w)
    rwa [List.length_take, Nat.min_eq_left hw] at hlt
  · cases h

theorem replicate (h : Gives dec P) : ∀ n, Gives (Decoder.replicate dec n) fun l ↦ ∀ a ∈ l, P a
  | 0 => by
    intro l as rest hl
    obtain ⟨rfl, -⟩ := Prod.ext_iff.1 (Option.some.inj hl)
    exact fun a ha ↦ absurd ha List.not_mem_nil
  | n + 1 => by
    intro l as rest hl
    rw [Decoder.replicate] at hl
    obtain ⟨⟨a, l₁⟩, ha, hl⟩ := Option.bind_eq_some_iff.1 hl
    obtain ⟨⟨as', l₂⟩, has, hl⟩ := Option.bind_eq_some_iff.1 hl
    obtain ⟨rfl, -⟩ := Prod.ext_iff.1 (Option.some.inj hl)
    exact List.forall_mem_cons.2 ⟨h _ _ _ ha, replicate h n _ _ _ has⟩

theorem vec (h : Gives dec P) : Gives (Decoder.vec dec) fun l ↦ ∀ a ∈ l, P a := by
  intro l as rest hl
  rw [Decoder.vec] at hl
  obtain ⟨⟨n, l₁⟩, -, hl⟩ := Option.bind_eq_some_iff.1 hl
  exact replicate h n _ _ _ hl

theorem option (h : Gives dec P) : Gives (Decoder.option dec) fun o ↦ ∀ a ∈ o, P a := by
  intro l o rest hl
  rw [Decoder.option] at hl
  obtain ⟨⟨tag, l₁⟩, -, hl⟩ := Option.bind_eq_some_iff.1 hl
  dsimp only at hl
  split at hl
  · obtain ⟨rfl, -⟩ := Prod.ext_iff.1 (Option.some.inj hl)
    exact fun a ha ↦ absurd ha (Option.not_mem_none a)
  · split at hl
    · obtain ⟨⟨b, l₂⟩, hb, hl⟩ := Option.bind_eq_some_iff.1 hl
      obtain ⟨rfl, -⟩ := Prod.ext_iff.1 (Option.some.inj hl)
      intro a ha
      obtain rfl := Option.some.inj ha
      exact h _ _ _ hb
    · cases hl

end Gives

end KsSql
