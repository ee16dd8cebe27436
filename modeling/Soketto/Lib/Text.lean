import Mathlib.Data.List.DropRight

/-!
# Texts that are split and trimmed

Text is a list. Fields are written with a separator between them, and read back by splitting the
text at the separator and trimming the parts.

* `Text.trimMatches`: a list without what satisfies a predicate at its ends; `trimMatches_map`,
  `splitOn_map`: trimming and splitting when every element is replaced.
* `Text.fields`: a first field and others, each after a separator; **`splitOn_fields`**.
* `Text.utf8`, `Text.fromUtf8`: the bytes of a string, and the string of bytes;
  **`fromUtf8_utf8`**, `utf8_append`.
-/

set_option autoImplicit false

namespace Text

variable {α : Type}

/-- The list without the elements at its ends that satisfy `p`. -/
def trimMatches (p : α → Bool) (l : List α) : List α := (l.dropWhile p).rdropWhile p

theorem trimMatches_of_forall {p : α → Bool} {l : List α} (h : ∀ x ∈ l, p x = false) :
    trimMatches p l = l := by
  have hd : l.dropWhile p = l := by
    cases l with
    | nil => rfl
    | cons x l => exact List.dropWhile_cons_of_neg (by simp [h x])
  rw [trimMatches, hd, List.rdropWhile_eq_self_iff]
  intro hl
  simp [h _ (List.getLast_mem hl)]

theorem trimMatches_of_ends {p : α → Bool} {l : List α} (hh : ∀ x ∈ l.head?, p x = false)
    (hl : ∀ x ∈ l.getLast?, p x = false) : trimMatches p l = l := by
  cases l with
  | nil => rfl
  | cons x l =>
    have hx : ¬ p x = true := by simp [hh x rfl]
    rw [trimMatches, List.dropWhile_cons_of_neg hx, List.rdropWhile_eq_self_iff]
    intro hne
    simp [hl _ (List.getLast?_eq_some_getLast hne)]

theorem trimMatches_cons {p : α → Bool} {x : α} (hx : p x = true) (l : List α) :
    trimMatches p (x :: l) = trimMatches p l := by
  rw [trimMatches, List.dropWhile_cons_of_pos hx, trimMatches]

section Map

variable {β : Type} {f : α → β} {p : β → Bool} {q : α → Bool}

theorem dropWhile_map {l : List α} (h : ∀ x ∈ l, p (f x) = q x) :
    (l.map f).dropWhile p = (l.dropWhile q).map f := by
  induction l with
  | nil => rfl
  | cons x l ih =>
    have hx := h x List.mem_cons_self
    rw [List.map_cons, List.dropWhile_cons, List.dropWhile_cons, hx,
      ih fun y hy => h y (List.mem_cons_of_mem x hy)]
    split_ifs <;> rfl

theorem trimMatches_map {l : List α} (h : ∀ x ∈ l, p (f x) = q x) :
    trimMatches p (l.map f) = (trimMatches q l).map f := by
  have hsub : ∀ x ∈ (l.dropWhile q).reverse, p (f x) = q x :=
    fun x hx => h x ((List.dropWhile_sublist q).mem (List.mem_reverse.mp hx))
  rw [trimMatches, trimMatches, List.rdropWhile, List.rdropWhile, dropWhile_map h,
    ← List.map_reverse, dropWhile_map hsub, List.map_reverse]

theorem mem_of_mem_trimMatches {l : List α} {x : α} (h : x ∈ trimMatches q l) : x ∈ l :=
  (List.dropWhile_sublist q).mem ((List.rdropWhile_prefix q _).subset h)

variable [BEq α] [BEq β] {s : α}

/-- **Splitting** when every element is replaced. -/
theorem splitOn_map {l : List α} (h : ∀ x ∈ l, (f x == f s) = (x == s)) :
    (l.map f).splitOn (f s) = (l.splitOn s).map (List.map f) := by
  induction l with
  | nil => rfl
  | cons x l ih =>
    have hx := h x List.mem_cons_self
    rw [List.map_cons, List.splitOn_cons_eq_if_modifyHead, List.splitOn_cons_eq_if_modifyHead, hx,
      ih fun y hy => h y (List.mem_cons_of_mem x hy)]
    split_ifs
    · rfl
    · cases l.splitOn s <;> rfl

omit [BEq β] in
/-- What is in a part is in the whole. -/
theorem mem_of_mem_splitOn {l part : List α} {x : α} (hpart : part ∈ l.splitOn s) (hx : x ∈ part) :
    x ∈ l := by
  induction l generalizing part with
  | nil =>
    obtain rfl := List.mem_singleton.mp hpart
    exact hx
  | cons y l ih =>
    rw [List.splitOn_cons_eq_if_modifyHead] at hpart
    split_ifs at hpart
    · rcases List.mem_cons.mp hpart with rfl | hpart
      · exact absurd hx List.not_mem_nil
      · exact List.mem_cons_of_mem y (ih hpart hx)
    · obtain ⟨z, zs, hsplit⟩ : ∃ z zs, l.splitOn s = z :: zs :=
        List.exists_cons_of_ne_nil (List.splitOn_ne_nil s l)
      rw [hsplit] at hpart ih
      rcases List.mem_cons.mp hpart with rfl | hpart
      · rcases List.mem_cons.mp hx with rfl | hx
        · exact List.mem_cons_self
        · exact List.mem_cons_of_mem y (ih List.mem_cons_self hx)
      · exact List.mem_cons_of_mem y (ih (List.mem_cons_of_mem z hpart) hx)

omit [BEq β] in
/-- The separator is in no part. -/
theorem not_mem_of_mem_splitOn [LawfulBEq α] {l part : List α} (hpart : part ∈ l.splitOn s) :
    s ∉ part := by
  induction l generalizing part with
  | nil =>
    obtain rfl := List.mem_singleton.mp hpart
    exact List.not_mem_nil
  | cons y l ih =>
    rw [List.splitOn_cons_eq_if_modifyHead] at hpart
    split_ifs at hpart with hy
    · rcases List.mem_cons.mp hpart with rfl | hpart
      · exact List.not_mem_nil
      · exact ih hpart
    · obtain ⟨z, zs, hsplit⟩ : ∃ z zs, l.splitOn s = z :: zs :=
        List.exists_cons_of_ne_nil (List.splitOn_ne_nil s l)
      rw [hsplit] at hpart ih
      rcases List.mem_cons.mp hpart with rfl | hpart
      · have hne : ¬ y = s := by simpa using hy
        exact fun h => (List.mem_cons.mp h).elim (fun h => hne h.symm) (ih List.mem_cons_self)
      · exact ih (List.mem_cons_of_mem z hpart)

end Map

/-- A first field, and further ones after a separator each. -/
def fields (s : α) (x : List α) (xs : List (List α)) : List α := x ++ xs.flatMap (s :: ·)

theorem not_mem_fields {c s : α} {x : List α} {xs : List (List α)} (hs : c ≠ s) (hx : c ∉ x)
    (hxs : ∀ y ∈ xs, c ∉ y) : c ∉ fields s x xs := by
  simp only [fields, List.mem_append, List.mem_flatMap, List.mem_cons, not_or, not_exists, not_and]
  exact ⟨hx, fun y hy => ⟨hs, hxs y hy⟩⟩

theorem fields_eq_intercalate (s : α) (x : List α) (xs : List (List α)) :
    fields s x xs = [s].intercalate (x :: xs) := by
  induction xs generalizing x with
  | nil => simp [fields]
  | cons y ys ih => simpa [fields] using ih y

/-- **Splitting at the separator** gives the fields back. -/
theorem splitOn_fields [BEq α] [LawfulBEq α] {s : α} {x : List α} {xs : List (List α)} (hx : s ∉ x)
    (hxs : ∀ y ∈ xs, s ∉ y) : (fields s x xs).splitOn s = x :: xs := by
  rw [fields_eq_intercalate, List.splitOn_intercalate]
  · intro y hy
    rcases List.mem_cons.mp hy with rfl | hy
    · exact hx
    · exact hxs y hy
  · exact List.cons_ne_nil _ _

theorem headD_splitOn_fields [BEq α] [LawfulBEq α] {s : α} {x : List α} (hx : s ∉ x)
    (xs : List (List α)) : ((fields s x xs).splitOn s).headD [] = x := by
  cases xs with
  | nil => simp [fields, List.splitOn_eq_singleton hx]
  | cons y ys =>
    have h : fields s x (y :: ys) = x ++ s :: (y ++ ys.flatMap (s :: ·)) := by simp [fields]
    rw [h, List.splitOn_append_cons_self_of_not_mem hx]
    rfl

/-- The bytes of a string. -/
def utf8 (s : String) : List UInt8 := s.toUTF8.data.toList

/-- The string that is spelled by the bytes, if there is one. -/
def fromUtf8 (bs : List UInt8) : Option String := String.fromUTF8? ⟨bs.toArray⟩

@[simp] theorem fromUtf8_utf8 (s : String) : fromUtf8 (utf8 s) = some s := by
  have hb : (⟨(utf8 s).toArray⟩ : ByteArray) = s.toUTF8 := by simp [utf8]
  rw [fromUtf8, hb, String.fromUTF8?, dif_pos (show s.toUTF8.IsValidUTF8 from s.isValidUTF8)]
  rfl

theorem toList_byteArray (b : ByteArray) : b.toList = b.data.toList := by
  have key : ∀ n i (r : List UInt8), b.size - i = n →
      ByteArray.toList.loop b i r = r.reverse ++ b.data.toList.drop i := by
    intro n
    induction n with
    | zero =>
      intro i r hi
      have hle : b.data.toList.length ≤ i := Nat.le_of_sub_eq_zero hi
      rw [ByteArray.toList.loop, if_neg (by omega), List.drop_eq_nil_of_le hle, List.append_nil]
    | succ n ih =>
      intro i r hi
      have hlt : i < b.data.toList.length := Nat.lt_of_sub_eq_succ hi
      have hget : b.get! i = b.data.toList[i] := by
        rw [ByteArray.get!, getElem!_pos b.data i hlt]
        rfl
      rw [ByteArray.toList.loop, if_pos (show i < b.size from hlt), ih _ _ (by omega), hget,
        List.drop_eq_getElem_cons hlt, List.reverse_cons, List.append_assoc, List.singleton_append]
  exact key _ 0 [] rfl

theorem toList_toUTF8 (s : String) : s.toUTF8.toList = utf8 s := toList_byteArray _

theorem utf8_of_fromUtf8 {bs : List UInt8} {s : String} (h : fromUtf8 bs = some s) : utf8 s = bs := by
  rw [fromUtf8, String.fromUTF8?] at h
  split_ifs at h
  cases h
  rfl

theorem utf8_append (s t : String) : utf8 (s ++ t) = utf8 s ++ utf8 t := by
  simp [utf8, String.toByteArray_append]

theorem utf8_ofList_append (s t : List Char) :
    utf8 (.ofList (s ++ t)) = utf8 (.ofList s) ++ utf8 (.ofList t) := by
  rw [String.ofList_append, utf8_append]

theorem utf8_ofList_flatMap {β : Type} (f : β → List Char) (l : List β) :
    utf8 (.ofList (l.flatMap f)) = l.flatMap fun x => utf8 (.ofList (f x)) := by
  induction l with
  | nil => rfl
  | cons x l ih => rw [List.flatMap_cons, utf8_ofList_append, ih, List.flatMap_cons]

theorem utf8_eq_flatMap (s : String) : utf8 s = s.toList.flatMap String.utf8EncodeChar := by
  rw [utf8, String.toUTF8, ← String.utf8Encode_toList, List.utf8Encode]
  simp

theorem utf8EncodeChar_of_ascii {c : Char} (h : c.toNat < 128) :
    String.utf8EncodeChar c = [UInt8.ofNat c.toNat] := by
  have hsize : c.utf8Size = 1 := by
    rw [Char.utf8Size_eq_one_iff, UInt32.le_iff_toNat_le]
    exact Nat.le_of_lt_succ h
  rw [String.utf8EncodeChar_eq_singleton hsize]
  rfl

theorem utf8_of_ascii {s : String} (h : ∀ c ∈ s.toList, c.toNat < 128) :
    utf8 s = s.toList.map fun c => UInt8.ofNat c.toNat := by
  rw [utf8_eq_flatMap, List.map_eq_flatMap]
  exact List.flatMap_congr fun c hc => utf8EncodeChar_of_ascii (h c hc)

theorem forall_utf8 {s : String} {p : ℕ → Prop} (h : ∀ c ∈ s.toList, c.toNat < 128 ∧ p c.toNat) :
    ∀ b ∈ utf8 s, p b.toNat := by
  rw [utf8_of_ascii fun c hc => (h c hc).1]
  intro b hb
  obtain ⟨c, hc, rfl⟩ := List.mem_map.mp hb
  obtain ⟨hlt, hp⟩ := h c hc
  rwa [UInt8.toNat_ofNat_of_lt' (show c.toNat < 256 by omega)]

theorem toNat_charOfNat {n : ℕ} (h : n < 128) : (Char.ofNat n).toNat = n := by
  have hall : ∀ n < 128, (Char.ofNat n).toNat = n := by decide
  exact hall n h

theorem exists_utf8 {bs : List UInt8} (h : ∀ b ∈ bs, b.toNat < 128) :
    ∃ s : String, utf8 s = bs ∧ ∀ c ∈ s.toList, ∃ b ∈ bs, c.toNat = b.toNat := by
  have hmem : ∀ c ∈ bs.map fun b => Char.ofNat b.toNat, ∃ b ∈ bs, c.toNat = b.toNat := by
    intro c hc
    obtain ⟨b, hb, rfl⟩ := List.mem_map.mp hc
    exact ⟨b, hb, toNat_charOfNat (h b hb)⟩
  refine ⟨.ofList (bs.map fun b => Char.ofNat b.toNat), ?_, by rwa [String.toList_ofList]⟩
  rw [utf8_of_ascii, String.toList_ofList, List.map_map]
  · refine (List.map_congr_left fun b hb => ?_).trans (List.map_id bs)
    rw [Function.comp_apply, toNat_charOfNat (h b hb), UInt8.ofNat_toNat]
    rfl
  · intro c hc
    rw [String.toList_ofList] at hc
    obtain ⟨b, hb, heq⟩ := hmem c hc
    rw [heq]
    exact h b hb

theorem utf8_injective : Function.Injective utf8 := by
  intro s t h
  have hs := fromUtf8_utf8 s
  rw [h, fromUtf8_utf8] at hs
  exact (Option.some.inj hs).symm

end Text
