import Codemod.Proofs.Utf8

/-!
# Boundaries

An offset is a boundary of a text when it stands between two characters. Two boundaries cut a text
into three parts, and the bytes between them are the bytes of the part in the middle.
-/

namespace Codemod.Text

/-- An offset between two characters of a text, or at one of its ends. -/
def Boundary (text : List Char) (n : Nat) : Prop :=
  ∃ front back, text = front ++ back ∧ byteLength front = n

theorem eq_nil_of_byteLength {cs : List Char} (h : byteLength cs = 0) :
  cs = []
  := by
  cases cs with
  | nil => rfl
  | cons c cs =>
    have := c.utf8Size_pos
    rw [byteLength_cons] at h
    omega

/-- A text that is not longer than another one with the same continuation is its beginning. -/
theorem exists_of_append_eq {s t u v : List Char} (h : s ++ t = u ++ v)
    (hle : byteLength s ≤ byteLength u) :
  ∃ r, u = s ++ r ∧ t = r ++ v
  := by
  rcases List.append_eq_append_iff.mp h with ⟨r, hu, ht⟩ | ⟨r, hs, hv⟩
  · exact ⟨r, hu, ht⟩
  · rw [hs, byteLength_append] at hle
    obtain rfl : r = [] := eq_nil_of_byteLength (by omega)
    exact ⟨[], by simpa using hs.symm, by simpa using hv.symm⟩

theorem boundary_zero (text : List Char) :
  Boundary text 0
  := ⟨[], text, rfl, rfl⟩

theorem Boundary.le {text : List Char} {n : Nat} (h : Boundary text n) :
  n ≤ byteLength text
  := by
  obtain ⟨front, back, rfl, rfl⟩ := h
  rw [byteLength_append]
  apply Nat.le_add_right

/-- Two boundaries in order cut a text into three parts. -/
theorem Boundary.split {text : List Char} {s e : Nat} (hs : Boundary text s) (he : Boundary text e)
    (h : s ≤ e) :
  ∃ front mid back, text = front ++ mid ++ back ∧ byteLength front = s
    ∧ byteLength (front ++ mid) = e
  := by
  obtain ⟨f, b, rfl, rfl⟩ := hs
  obtain ⟨f', b', heq, rfl⟩ := he
  rcases List.append_eq_append_iff.mp heq with ⟨m, rfl, rfl⟩ | ⟨m, rfl, rfl⟩
  · use f, m, b'
  · rw [byteLength_append] at h
    have hm : m = [] := eq_nil_of_byteLength (by omega)
    subst hm
    use f', [], b
    simp

/-- What a text has between the ends of two of its beginnings. -/
theorem slice_append (front mid back : List Char) :
  slice (front ++ mid ++ back) (byteLength front) (byteLength (front ++ mid)) = mid
  := by
  rw [slice, List.append_assoc, dropBytes_append, byteLength_append, Nat.add_sub_cancel_left,
    takeBytes_append]

theorem slice_self (text : List Char) (n : Nat) :
  slice text n n = []
  := by
  rw [slice, Nat.sub_self]
  cases dropBytes text n with
  | nil => rfl
  | cons c cs => rfl

section Parts

variable {text : List Char} {r s t : Nat}

theorem Boundary.dropBytes_eq (hs : Boundary text s) (ht : Boundary text t) (h : s ≤ t) :
  dropBytes text s = slice text s t ++ dropBytes text t
  := by
  obtain ⟨front, mid, back, rfl, rfl, rfl⟩ := hs.split ht h
  rw [slice_append, dropBytes_append, List.append_assoc, dropBytes_append]

theorem Boundary.takeBytes_eq (hs : Boundary text s) (ht : Boundary text t) (h : s ≤ t) :
  takeBytes text t = takeBytes text s ++ slice text s t
  := by
  obtain ⟨front, mid, back, rfl, rfl, rfl⟩ := hs.split ht h
  rw [slice_append, takeBytes_append, List.append_assoc, takeBytes_append]

theorem Boundary.byteLength_takeBytes (hs : Boundary text s) :
  byteLength (takeBytes text s) = s
  := by
  obtain ⟨front, back, rfl, rfl⟩ := hs
  rw [takeBytes_append]

theorem Boundary.byteLength_slice (hs : Boundary text s) (ht : Boundary text t) (h : s ≤ t) :
  s + byteLength (slice text s t) = t
  := by
  have hlength := congrArg byteLength (hs.takeBytes_eq ht h)
  rw [byteLength_append, hs.byteLength_takeBytes, ht.byteLength_takeBytes] at hlength
  apply hlength.symm

/-- The part between two boundaries is cut at a boundary between them. -/
theorem Boundary.slice_eq (hr : Boundary text r) (hs : Boundary text s) (ht : Boundary text t)
    (hrs : r ≤ s) (hst : s ≤ t) :
  slice text r t = slice text r s ++ slice text s t
  := by
  have hrest := hr.dropBytes_eq ht (Nat.le_trans hrs hst)
  rw [hr.dropBytes_eq hs hrs, hs.dropBytes_eq ht hst, ← List.append_assoc] at hrest
  apply (List.append_cancel_right hrest).symm

end Parts

/-! ### Bytes and characters at boundaries -/

/-- The bytes between two boundaries are those of the text between them. -/
theorem Boundary.encode_slice {text : List Char} {s e : Nat} (hs : Boundary text s)
    (he : Boundary text e) (h : s ≤ e) :
  ((Utf8.encode text).take e).drop s = Utf8.encode (slice text s e)
  := by
  obtain ⟨front, mid, back, rfl, rfl, rfl⟩ := hs.split he h
  rw [slice_append, Utf8.encode_append, ← Utf8.length_encode (front ++ mid), List.take_left,
    Utf8.encode_append, ← Utf8.length_encode front, List.drop_left]

/-- The bytes from a boundary on are those of the text from there on. -/
theorem Boundary.encode_dropBytes {text : List Char} {n : Nat} (h : Boundary text n) :
  (Utf8.encode text).drop n = Utf8.encode (dropBytes text n)
  := by
  obtain ⟨front, back, rfl, rfl⟩ := h
  rw [dropBytes_append, Utf8.encode_append, ← Utf8.length_encode front, List.drop_left]

/-- The character at an offset. -/
def charAt (text : List Char) (n : Nat) : Option Char := (dropBytes text n).head?

/-- The character before an offset. -/
def charBefore (text : List Char) (n : Nat) : Option Char := (takeBytes text n).getLast?

theorem exists_of_charAt {text : List Char} {n : Nat} {c : Char} (h : charAt text n = some c) :
  ∃ rest, dropBytes text n = c :: rest
  := List.head?_eq_some_iff.mp h

theorem exists_of_charBefore {text : List Char} {n : Nat} {c : Char}
    (h : charBefore text n = some c) :
  ∃ front, takeBytes text n = front ++ [c]
  := List.getLast?_eq_some_iff.mp h

theorem Boundary.slice_ne_nil {text : List Char} {s t : Nat} (hs : Boundary text s)
    (ht : Boundary text t) (h : s < t) :
  slice text s t ≠ []
  := by
  intro hnil
  have hlength := hs.byteLength_slice ht (Nat.le_of_lt h)
  rw [hnil, byteLength_nil] at hlength
  omega

/-- The character at a boundary starts the text from it on. -/
theorem head?_slice {source : List Char} {a p : Nat} {x : Char} (ha : Boundary source a)
    (hp : Boundary source p) (h : a < p) (hx : charAt source a = some x) :
  (slice source a p).head? = some x
  := by
  rwa [charAt, ha.dropBytes_eq hp (Nat.le_of_lt h), List.head?_append,
    Option.or_of_isSome (List.isSome_head?.mpr (ha.slice_ne_nil hp h))] at hx

/-- The character before a boundary ends the text up to it. -/
theorem getLast?_slice {source : List Char} {a p : Nat} {x : Char} (ha : Boundary source a)
    (hp : Boundary source p) (h : a < p) (hx : charBefore source p = some x) :
  (slice source a p).getLast? = some x
  := by
  rwa [charBefore, ha.takeBytes_eq hp (Nat.le_of_lt h), List.getLast?_append,
    Option.or_of_isSome (List.getLast?_isSome.mpr (ha.slice_ne_nil hp h))] at hx

end Codemod.Text
