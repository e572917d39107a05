import Vdetelweb.Spec.Ipv6

/-!
# IPv6 text is decoded

The pieces between the colons are those of the groups, with an empty one for a `::`, and another
one where it is at an end. The first loop stops behind the first empty piece, so that an empty
piece at the front counts as a group that is left, as one at the back does: each is a zero, and
the second loop makes one less.

So the eight groups come out in order, whatever the form (`decoded`).
-/

namespace Vdetelweb.Ipv6

open Ipv6Text Numeral

/-! ## Groups -/

/-- No blank is a digit. -/
theorem not_isSpace_of_hexDigit {c : Char} (hc : (hexDigit c).isSome) : isSpace false c = false := by
  have hrange := toNat_of_hexDigit hc
  have hblank : c ≠ ' ' := by
    rintro rfl
    cases hc
  have hcontrol : ¬ (9 ≤ c.toNat ∧ c.toNat ≤ 13) := by omega
  simpa [isSpace, hblank] using hcontrol

theorem strip_text (h : HexGroup) : strip h.text = h.text :=
  Trim.trim_of_forall_not fun c hc => not_isSpace_of_hexDigit (h.digits c hc)

theorem notMem_text (h : HexGroup) {c : Char} (hc : hexDigit c = none) : c ∉ h.text := by
  intro hmem
  have hdigit := h.digits c hmem
  rw [hc] at hdigit
  cases hdigit

theorem unsigned_text (h : HexGroup) : int16.unsigned h.text = some h.value.toNat := by
  have hdigits : int16.digits h.text = some h.value.toNat := by
    rw [int16.digits, if_neg h.nonempty, hexNat_eq h.digits]
    simp [HexGroup.value]
  unfold int16.unsigned
  split
  · rename_i s hs
    exact absurd (by simp [hs]) (notMem_text h (c := 'x') rfl)
  · rename_i s hs
    exact absurd (by simp [hs]) (notMem_text h (c := 'X') rfl)
  · exact hdigits

/-- **A group is read as its value.** -/
theorem int16_text (h : HexGroup) : int16 h.text = some (h.value.toNat : ℤ) := by
  unfold int16
  rw [strip_text]
  split
  · rename_i s hs
    exact absurd (by simp [hs]) (notMem_text h (c := '-') rfl)
  · rename_i s hs
    exact absurd (by simp [hs]) (notMem_text h (c := '+') rfl)
  · rw [unsigned_text]
    rfl

/-- What the groups are read as. -/
def values (groups : List HexGroup) : List ℤ := groups.map fun h => (h.value.toNat : ℤ)

/-! ## Loops -/

theorem beforeGap_full (groups : List HexGroup) (index : ℕ) (address : List ℤ) :
    beforeGap (groups.map HexGroup.text) index address =
      some (address ++ values groups, index + groups.length) := by
  induction groups generalizing index address with
  | nil => simp [beforeGap, values]
  | cons h groups ih =>
    simp [beforeGap, h.nonempty, int16_text, ih, values]
    omega

theorem beforeGap_gap (groups : List HexGroup) (rest : List Bytes) (index : ℕ) (address : List ℤ) :
    beforeGap (groups.map HexGroup.text ++ [] :: rest) index address =
      some (address ++ values groups, index + groups.length + 1) := by
  induction groups generalizing index address with
  | nil => simp [beforeGap, values]
  | cons h groups ih =>
    simp [beforeGap, h.nonempty, int16_text, ih, values]
    omega

theorem pad_eq (room : ℕ) (address : List ℤ) :
    pad room address = address ++ List.replicate (room - address.length) 0 := by
  induction address using pad.induct room with
  | case1 address h ih =>
    have hroom : room - address.length = room - (address ++ [0]).length + 1 := by
      simp only [List.length_append, List.length_singleton]
      omega
    rw [pad, if_pos h, ih, hroom, List.replicate_succ, List.append_assoc, List.singleton_append]
  | case2 address h =>
    have hroom : room - address.length = 0 := by omega
    rw [pad, if_neg h, hroom, List.replicate_zero, List.append_nil]

theorem behindGap_full (groups : List HexGroup) (address : List ℤ) :
    behindGap (groups.map HexGroup.text) address = some (address ++ values groups) := by
  induction groups generalizing address with
  | nil => simp [behindGap, values]
  | cons h groups ih => simp [behindGap, h.nonempty, int16_text, ih, values]

/-! ## Pieces -/

/-- The pieces on one side of a `::`. -/
def pieces (groups : List HexGroup) : List Bytes := if groups = [] then [[]] else groups.map HexGroup.text

theorem splitOn_join {groups : List HexGroup} (hne : groups ≠ []) :
    (join groups).splitOn ':' = groups.map HexGroup.text := by
  apply List.splitOn_intercalate
  · intro piece hpiece
    obtain ⟨h, -, rfl⟩ := List.mem_map.1 hpiece
    exact notMem_text h rfl
  · simpa using hne

theorem splitOn_pieces (groups : List HexGroup) : (join groups).splitOn ':' = pieces groups := by
  by_cases h : groups = []
  · subst h
    rfl
  · rw [splitOn_join h, pieces, if_neg h]

/-- The `::` leaves an empty piece. -/
theorem splitOn_compressed (before after : List HexGroup) :
    (join before ++ [':', ':'] ++ join after).splitOn ':' = pieces before ++ [] :: pieces after := by
  have htext : join before ++ [':', ':'] ++ join after = join before ++ ':' :: ([] ++ ':' :: join after) := by simp
  rw [htext, List.splitOn_append_cons_self, List.splitOn_append_cons_self, splitOn_pieces, splitOn_pieces]
  rfl

/-- The empty piece on a side without groups. -/
def blank (groups : List HexGroup) : ℕ := if groups = [] then 1 else 0

theorem length_pieces (groups : List HexGroup) : (pieces groups).length = blank groups + groups.length := by
  cases groups <;> simp [pieces, blank]

/-- Where the first loop stops at a `::`, and what is left. -/
theorem beforeGap_pieces (groups : List HexGroup) (rest : List Bytes) : ∃ index,
    beforeGap (pieces groups ++ [] :: rest) 0 [] = some (values groups, index) ∧
      (pieces groups ++ [] :: rest).drop index = List.replicate (blank groups) [] ++ rest := by
  cases groups with
  | nil => exact ⟨1, by simp [beforeGap, pieces, values], rfl⟩
  | cons h groups =>
    have hpieces : pieces (h :: groups) = (h :: groups).map HexGroup.text := if_neg (by simp)
    have happend : (h :: groups).map HexGroup.text ++ [] :: rest =
        ((h :: groups).map HexGroup.text ++ [[]]) ++ rest := by simp
    refine ⟨(h :: groups).length + 1, ?_, ?_⟩
    · rw [hpieces, beforeGap_gap, Nat.zero_add, List.nil_append]
    · rw [hpieces, happend]
      exact List.drop_left' (by simp)

theorem behindGap_zeros (zeros : ℕ) (rest : List Bytes) (address : List ℤ) :
    behindGap (List.replicate zeros [] ++ rest) address =
      behindGap rest (address ++ List.replicate zeros 0) := by
  induction zeros generalizing address with
  | zero => simp
  | succ zeros ih => simp [List.replicate_succ, behindGap, ih]

/-- What the last loop makes of the pieces behind a `::`. -/
theorem behindGap_pieces (groups : List HexGroup) (address : List ℤ) :
    behindGap (pieces groups) address =
      some (address ++ List.replicate (blank groups) 0 ++ values groups) := by
  cases groups with
  | nil => simp [behindGap, pieces, values, blank]
  | cons h groups =>
    have hpieces : pieces (h :: groups) = (h :: groups).map HexGroup.text := if_neg (by simp)
    rw [hpieces, behindGap_full]
    simp [blank]

/-! ## Addresses -/

/-- The groups as numbers. -/
def groupValues (a : Ipv6Address) : List ℤ := a.groups.map fun g => (g.toNat : ℤ)

theorem address_full {groups : List HexGroup} {eight : groups.length = 8} :
    groupValues (full groups eight).address = values groups := by
  rw [groupValues, Ipv6Text.address, List.map_map]
  rfl

theorem address_compressed {before after : List HexGroup} {room : before.length + after.length < 8} :
    groupValues (compressed before after room).address =
      values before ++ List.replicate (8 - (before.length + after.length)) 0 ++ values after := by
  simp [groupValues, Ipv6Text.address, values, Function.comp_def]

/-- The empty pieces have room. -/
theorem blank_le {before after : List HexGroup} (room : before.length + after.length < 8) :
    before.length + blank before + (blank after + after.length) ≤ 8 := by
  cases before <;> cases after <;> simp only [blank, List.length_nil, List.length_cons, reduceCtorEq, if_true,
    if_false] at room ⊢ <;> omega

/-- **The eight groups come out in order.** -/
theorem toArray_text (t : Ipv6Text) : toArray t.text = some (groupValues t.address) := by
  cases t with
  | full groups eight =>
    have hne : groups ≠ [] := by
      rintro rfl
      cases eight
    have hlen : (values groups).length = 8 := by rw [values, List.length_map, eight]
    have hdrop : (groups.map HexGroup.text).drop groups.length = [] :=
      List.drop_eq_nil_of_le (by rw [List.length_map])
    rw [address_full, toArray, Ipv6Text.text, splitOn_join hne]
    simp [beforeGap_full, hdrop, pad_eq, hlen, behindGap]
  | compressed before after room =>
    obtain ⟨index, hfirst, hdrop⟩ := beforeGap_pieces before (pieces after)
    have hlen : (List.replicate (blank before) [] ++ pieces after).length =
        blank before + (blank after + after.length) := by
      rw [List.length_append, List.length_replicate, length_pieces]
    have hroom := blank_le room
    have hzeros : 8 - (before.length + after.length) =
        8 - (blank before + (blank after + after.length)) - before.length + blank before + blank after := by omega
    have hvalues : (values before).length = before.length := List.length_map _
    rw [address_compressed, toArray, Ipv6Text.text, splitOn_compressed, hzeros]
    simp only [hfirst, hdrop, hlen, behindGap_zeros, behindGap_pieces, pad_eq, hvalues, Option.bind_eq_bind,
      Option.bind_some, List.replicate_add, List.append_assoc]

theorem exists_group (g : BitVec 16) : ∃ h : HexGroup, h.value = g := by
  obtain ⟨s, hne, hdigits, hvalue⟩ := exists_numeral g.toNat
  refine ⟨⟨s, hne, hdigits, by rw [hvalue]; exact g.isLt⟩, ?_⟩
  apply BitVec.eq_of_toNat_eq
  simpa [HexGroup.value] using hvalue

/-- **Every address has a textual form.** -/
theorem exists_text (a : Ipv6Address) : ∃ t : Ipv6Text, t.address = a := by
  obtain ⟨groups, eight⟩ := a
  obtain ⟨hs, rfl⟩ : ∃ hs : List HexGroup, hs.map HexGroup.value = groups := by
    clear eight
    induction groups with
    | nil => exact ⟨[], rfl⟩
    | cons g groups ih =>
      obtain ⟨h, rfl⟩ := exists_group g
      obtain ⟨hs, rfl⟩ := ih
      exact ⟨h :: hs, rfl⟩
  exact ⟨.full hs (by rwa [List.length_map] at eight), rfl⟩

/-! ## Bits -/

/-- The one bits of a group. -/
def oneBits (g : BitVec 16) : ℕ := (List.range 16).countP g.getLsbD

theorem count_bin (g : BitVec 16) : (bin (g.toNat : ℤ)).count '1' = oneBits g := by
  have hsign : ¬ (g.toNat : ℤ) < 0 := by omega
  have hbin : bin (g.toNat : ℤ) = ['0', 'b'] ++ Nat.toDigits 2 g.toNat := by simp [bin, hsign]
  have hprefix : ['0', 'b'].count '1' = 0 := rfl
  rw [hbin, List.count_append, hprefix, Nat.zero_add, count_toDigits g.isLt]
  rfl

/-- **IPv6 text is decoded** to the eight groups in order, and to the number of their one bits. -/
theorem decoded (t : Ipv6Text) :
    ipv6_address_str_to_array t.text = some (t.address.groups.map fun g => (g.toNat : ℤ)) ∧
      maskToCidr6 t.text = some (t.address.groups.map oneBits).sum := by
  have harray : toArray t.text = some (t.address.groups.map fun g => (g.toNat : ℤ)) := toArray_text t
  refine ⟨harray, ?_⟩
  have hsum : (t.address.groups.map fun g => (g.toNat : ℤ)).foldl (fun count value => count + (bin value).count '1') 0 =
      (t.address.groups.map oneBits).sum := by
    rw [List.foldl_map, List.sum_eq_foldl, List.foldl_map]
    simp only [count_bin]
  rw [maskToCidr6, harray, ← hsum]
  rfl

end Vdetelweb.Ipv6
