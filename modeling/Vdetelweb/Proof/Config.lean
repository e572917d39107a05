import Vdetelweb.Spec.Config

/-!
# What `parseConfig` reads

`parseConfig` takes the assignments that stand before the first malformed line, and the
last one for a key wins (`parseConfig_textOf`). So a well-formed file is read as it is
written (`parseConfig_written`), and a malformed line that is put into a file hides the
assignments after it (`parseConfig_insert_iff`).
-/

namespace Vdetelweb

/-! ## Lines -/

/-- Neither blank nor a comment, and without `=`. -/
def BadLine (line : Bytes) : Prop :=
  strip line ≠ [] ∧ (strip line).head? ≠ some '#' ∧ '=' ∉ line

instance : DecidablePred BadLine := fun _ => inferInstanceAs (Decidable (_ ∧ _ ∧ _))

/-- The key and the value on a line, if it is an assignment. -/
def assignment (line : Bytes) : Option (Bytes × Bytes) :=
  if strip line = [] ∨ (strip line).head? = some '#' ∨ '=' ∉ line then none
  else some (strip (Lines.cut '=' (strip line)).1, strip (Lines.cut '=' (strip line)).2)

/-- The assignments before the first malformed line. -/
def taken (lines : List Bytes) : List (Bytes × Bytes) :=
  (lines.takeWhile fun line => ¬ BadLine line).filterMap assignment

/-- The value given last to a key. -/
def lastValue (key : Bytes) (as : List (Bytes × Bytes)) : Option Bytes :=
  ((as.filter fun a => a.1 = key).map Prod.snd).getLast?

/-- The dictionary overridden, key by key, by the value given last. -/
def override (config : ConfigDict) (as : List (Bytes × Bytes)) : ConfigDict := fun key =>
  (lastValue key as).or (config key)

theorem mem_strip_iff {c : Char} (hc : isSpace false c = false) (line : Bytes) :
    c ∈ strip line ↔ c ∈ line := by
  obtain ⟨a, b, hl, ha, hb⟩ := Trim.trim_split (p := isSpace false) line
  have hnot : ∀ w : Bytes, (∀ x ∈ w, isSpace false x = true) → c ∉ w := by
    intro w hw hmem
    rw [hw c hmem] at hc
    cases hc
  have hmem : c ∈ line ↔ c ∈ a ++ strip line ++ b := by rw [strip, ← hl]
  rw [hmem, List.mem_append, List.mem_append]
  simp [hnot a ha, hnot b hb]

theorem readConfigLine_bad {line : Bytes} (h : BadLine line) (config : ConfigDict) :
    readConfigLine line config = (.raise .nameError 76, config) := by
  obtain ⟨hne, hhead, heq⟩ := h
  rw [readConfigLine]
  simp [hne, hhead, mem_strip_iff (c := '=') (by decide), heq]

theorem readConfigLine_good {line : Bytes} (h : ¬ BadLine line) (config : ConfigDict) :
    readConfigLine line config = (.ret (), override config (assignment line).toList) := by
  have hmem : '=' ∈ strip line ↔ '=' ∈ line := mem_strip_iff (by decide) line
  rw [readConfigLine, assignment]
  by_cases hskip : strip line = [] ∨ (strip line).head? = some '#'
  · have : override config [] = config := rfl
    rw [if_pos hskip, if_pos (hskip.elim Or.inl fun h => Or.inr (Or.inl h))]
    simp [this]
  · obtain ⟨hne, hhead⟩ := not_or.1 hskip
    have heq : '=' ∈ line := by
      by_contra hno
      exact h ⟨hne, hhead, hno⟩
    rw [if_neg hskip, if_pos (hmem.2 heq), if_neg (by simp [hne, hhead, heq]), Act.modify_apply]
    congr 1
    funext key
    by_cases hkey : strip (Lines.cut '=' (strip line)).1 = key
    · simp [override, lastValue, hkey]
    · simp [override, lastValue, hkey, Function.update_of_ne (Ne.symm hkey)]

/-! ## Assignments -/

theorem lastValue_append (key : Bytes) (as bs : List (Bytes × Bytes)) :
    lastValue key (as ++ bs) = (lastValue key bs).or (lastValue key as) := by
  simp [lastValue, List.getLast?_append]

theorem override_append (config : ConfigDict) (as bs : List (Bytes × Bytes)) :
    override config (as ++ bs) = override (override config as) bs := by
  funext key
  simp [override, lastValue_append, Option.or_assoc]

theorem taken_bad {line : Bytes} (h : BadLine line) (lines : List Bytes) :
    taken (line :: lines) = [] := by
  simp [taken, h]

theorem taken_good {line : Bytes} (h : ¬ BadLine line) (lines : List Bytes) :
    taken (line :: lines) = (assignment line).toList ++ taken lines := by
  unfold taken
  rw [List.takeWhile_cons_of_pos (by simpa using h)]
  cases ha : assignment line with
  | none => rw [List.filterMap_cons_none ha]; rfl
  | some a => rw [List.filterMap_cons_some ha]; rfl

/-- Nothing after a malformed line is taken. -/
theorem taken_append_of_bad {ls : List Bytes} (h : ∃ l ∈ ls, BadLine l) (ks : List Bytes) :
    taken (ls ++ ks) = taken ls := by
  induction ls with
  | nil => obtain ⟨l, hl, -⟩ := h; cases hl
  | cons line ls ih =>
    rw [List.cons_append]
    by_cases hbad : BadLine line
    · rw [taken_bad hbad, taken_bad hbad]
    · have hls : ∃ l ∈ ls, BadLine l := by
        obtain ⟨l, hl, hm⟩ := h
        rcases List.mem_cons.1 hl with rfl | hl
        · exact absurd hm hbad
        · exact ⟨l, hl, hm⟩
      rw [taken_good hbad, taken_good hbad, ih hls]

theorem taken_append {ls : List Bytes} (h : ∀ l ∈ ls, ¬ BadLine l) (ks : List Bytes) :
    taken (ls ++ ks) = taken ls ++ taken ks := by
  induction ls with
  | nil => rfl
  | cons line ls ih =>
    rw [List.forall_mem_cons] at h
    rw [List.cons_append, taken_good h.1, taken_good h.1, ih h.2, List.append_assoc]

/-! ## Files -/

/-- **The loop** takes the assignments before the first malformed line. -/
theorem readConfigLines_state (lines : List Bytes) (config : ConfigDict) :
    (readConfigLines lines config).2 = override config (taken lines) := by
  induction lines generalizing config with
  | nil => rfl
  | cons line lines ih =>
    rw [readConfigLines, Act.bind_apply]
    by_cases hbad : BadLine line
    · rw [readConfigLine_bad hbad, taken_bad hbad]
      rfl
    · rw [readConfigLine_good hbad, taken_good hbad, override_append]
      exact ih _

/-- The text of a file with these lines; it ends with a newline if the last is empty. -/
def textOf (lines : List Bytes) : Bytes := ['\n'].intercalate lines

theorem readlines_line {line : Bytes} (h : '\n' ∉ line) (b : Bytes) :
    readlines (line ++ '\n' :: b) = (line ++ ['\n']) :: readlines b := by
  induction line with
  | nil => rfl
  | cons c line ih =>
    simp only [List.mem_cons, not_or] at h
    rw [List.cons_append, readlines, if_neg (Ne.symm h.1), ih h.2, List.cons_append]

theorem readlines_last {line : Bytes} (h : '\n' ∉ line) :
    readlines line = if line = [] then [] else [line] := by
  induction line with
  | nil => rfl
  | cons c line ih =>
    simp only [List.mem_cons, not_or] at h
    rw [readlines, if_neg (Ne.symm h.1), ih h.2, if_neg (List.cons_ne_nil c line)]
    cases line <;> rfl

/-- Trimming takes the newline off a line. -/
theorem readConfigLine_newline (line : Bytes) :
    readConfigLine (line ++ ['\n']) = readConfigLine line := by
  have hstrip : strip (line ++ ['\n']) = strip line := by
    have := Trim.trim_margins (p := isSpace false) (a := []) (b := ['\n']) (by simp) (by simp [isSpace]) line
    rwa [List.nil_append] at this
  rw [readConfigLine, readConfigLine, hstrip]

/-- The loop goes through the lines of the text. -/
theorem readConfigLines_textOf {lines : List Bytes} (h : ∀ l ∈ lines, '\n' ∉ l) :
    readConfigLines (readlines (textOf lines)) = readConfigLines lines := by
  induction lines with
  | nil => rfl
  | cons line lines ih =>
    rw [List.forall_mem_cons] at h
    cases lines with
    | nil =>
      rw [textOf, List.intercalate_singleton, readlines_last h.1]
      split
      · rename_i hnil
        subst hnil
        rfl
      · rfl
    | cons next lines =>
      rw [textOf, List.intercalate_cons_cons, ← textOf, List.append_assoc, List.singleton_append,
        readlines_line h.1, readConfigLines, readConfigLine_newline, ih h.2]
      rfl

/-- **What a file says** is the defaults, overridden by what is taken from its lines. -/
theorem parseConfig_textOf {lines : List Bytes} (h : ∀ l ∈ lines, '\n' ∉ l) :
    parseConfig (textOf lines) = override defaultConfig (taken lines) := by
  rw [parseConfig, readConfigLines_textOf h, Act.attempt_apply, readConfigLines_state]

/-- The lines of a file; the last is empty if the text ends with a newline. -/
def fileLines (file : Bytes) : List Bytes := file.splitOn '\n'

theorem textOf_fileLines (file : Bytes) : textOf (fileLines file) = file :=
  List.intercalate_splitOn '\n'

theorem fileLines_textOf {lines : List Bytes} (h : ∀ l ∈ lines, '\n' ∉ l) (hne : lines ≠ []) :
    fileLines (textOf lines) = lines :=
  List.splitOn_intercalate '\n' h hne

theorem fileLines_bare (file : Bytes) : ∀ l ∈ fileLines file, '\n' ∉ l := Lines.splitOn_bare file

/-- There is always a user name for `authenticate`. -/
theorem username_parseConfig (file : Bytes) : (Config.ofDict (parseConfig file)).isSome = true := by
  have hadmin : defaultConfig "username".toList = some "admin".toList := if_pos rfl
  rw [← textOf_fileLines file, parseConfig_textOf (fileLines_bare file), Config.ofDict, Option.isSome_map,
    override, hadmin, Option.isSome_or, Option.isSome_some, Bool.or_true]

/-! ## A malformed line -/

/-- The file with a line put in before the line of that number, or at the end. -/
def insertLine (file : Bytes) (k : ℕ) (line : Bytes) : Bytes :=
  textOf ((fileLines file).take k ++ line :: (fileLines file).drop k)

/-- **A malformed line changes nothing if and only if** there is one before it already, or
what is assigned after it is what the keys have before it. -/
theorem parseConfig_insert_iff (file : Bytes) (k : ℕ) {line : Bytes} (hline : '\n' ∉ line)
    (hbad : BadLine line) :
    parseConfig (insertLine file k line) = parseConfig file ↔
      (∃ l ∈ (fileLines file).take k, BadLine l) ∨
        ∀ key value, lastValue key (taken ((fileLines file).drop k)) = some value →
          override defaultConfig (taken ((fileLines file).take k)) key = some value := by
  have hbare := fileLines_bare file
  have hfile : parseConfig file = override defaultConfig
      (taken ((fileLines file).take k ++ (fileLines file).drop k)) := by
    conv_lhs => rw [← textOf_fileLines file, parseConfig_textOf hbare]
    rw [List.take_append_drop]
  set pre := (fileLines file).take k
  set post := (fileLines file).drop k
  have hins : parseConfig (insertLine file k line) = override defaultConfig (taken (pre ++ line :: post)) := by
    refine parseConfig_textOf fun l hl => ?_
    rcases List.mem_append.1 hl with hl | hl
    · exact hbare l (List.mem_of_mem_take hl)
    · rcases List.mem_cons.1 hl with rfl | hl
      · exact hline
      · exact hbare l (List.mem_of_mem_drop hl)
  rw [hins, hfile]
  by_cases hpre : ∃ l ∈ pre, BadLine l
  · -- neither run gets as far as the line
    rw [taken_append_of_bad hpre, taken_append_of_bad hpre]
    exact ⟨fun _ => Or.inl hpre, fun _ => rfl⟩
  · have hgood : ∀ l ∈ pre, ¬ BadLine l := fun l hl hm => hpre ⟨l, hl, hm⟩
    rw [taken_append hgood, taken_append hgood, taken_bad hbad, List.append_nil, override_append]
    constructor
    · intro heq
      refine Or.inr fun key value hval => ?_
      rw [heq, override, hval]
      rfl
    · intro hcond
      have hsame := hcond.resolve_left hpre
      funext key
      conv_rhs => rw [override]
      cases hval : lastValue key (taken post) with
      | none => rfl
      | some value => rw [hsame key value hval]; rfl

theorem parseConfig_insert_comment :
    parseConfig (insertLine "password=x\n# y\n".toList 1 "ip 10.0.0.1".toList) =
      parseConfig "password=x\n# y\n".toList := by
  have hnone : taken ((fileLines "password=x\n# y\n".toList).drop 1) = [] := by decide
  refine (parseConfig_insert_iff _ 1 (by decide) (by decide)).2 (Or.inr fun key value hval => ?_)
  rw [hnone] at hval
  cases hval

/-- The password comes after the line. -/
theorem parseConfig_insert_password : ¬ ∀ (file : Bytes) (k : ℕ) (line : Bytes), '\n' ∉ line →
    BadLine line → parseConfig (insertLine file k line) = parseConfig file := by
  intro h
  have hread := congrFun (h (textOf ["password=x".toList]) 0 "ip 10.0.0.1".toList (by decide) (by decide))
    "password".toList
  rw [insertLine, fileLines_textOf (by decide) (by decide), parseConfig_textOf (by decide),
    parseConfig_textOf (by decide)] at hread
  revert hread
  decide

/-! ## Well-formed files -/

/-- Blanks within a line. -/
abbrev Blank := {w : Bytes // ∀ c ∈ w, isSpace false c = true ∧ c ≠ '\n'}

/-- A key and its value. -/
structure Setting where
  key : Bytes
  value : Bytes
  key_trimmed : strip key = key
  value_trimmed : strip value = value
  key_ne_nil : key ≠ []
  key_head : key.head? ≠ some '#'
  key_bare : '=' ∉ key ∧ '\n' ∉ key
  value_bare : '\n' ∉ value

/-- A line of a well-formed file. -/
inductive ConfigLine
  | setting (s : Setting) (a b c d : Blank)
  | blank (w : Blank)
  | comment (w : Blank) (text : {t : Bytes // '\n' ∉ t})

/-- The line as it is written. -/
def ConfigLine.text : ConfigLine → Bytes
  | .setting s a b c d => a.1 ++ (s.key ++ b.1 ++ '=' :: (c.1 ++ s.value)) ++ d.1
  | .blank w => w.1
  | .comment w text => w.1 ++ '#' :: text.1

/-- The key and the value that are written on it. -/
def ConfigLine.pair : ConfigLine → Option (Bytes × Bytes)
  | .setting s _ _ _ _ => some (s.key, s.value)
  | _ => none

theorem blank_bare (w : Blank) : '\n' ∉ w.1 := fun h => (w.2 _ h).2 rfl

theorem blank_space (w : Blank) : ∀ c ∈ w.1, isSpace false c = true := fun c hc => (w.2 c hc).1

theorem ConfigLine.text_bare (l : ConfigLine) : '\n' ∉ l.text := by
  cases l with
  | setting s a b c d =>
    simp [ConfigLine.text, blank_bare, s.key_bare.2, s.value_bare]
  | blank w => exact blank_bare w
  | comment w text => simp [ConfigLine.text, blank_bare, text.2]

/-- Blanks around a line do not matter. -/
theorem strip_blanks (a b : Blank) (line : Bytes) : strip (a.1 ++ line ++ b.1) = strip line :=
  Trim.trim_margins (blank_space a) (blank_space b) line

theorem strip_append_blank (line : Bytes) (b : Blank) : strip (line ++ b.1) = strip line :=
  strip_blanks ⟨[], by simp⟩ b line

theorem strip_blank_append (a : Blank) (line : Bytes) : strip (a.1 ++ line) = strip line := by
  have := strip_blanks a ⟨[], by simp⟩ line
  rwa [List.append_nil] at this

theorem strip_blank (w : Blank) : strip w.1 = [] := Trim.trim_eq_nil_iff.2 (blank_space w)

theorem assignment_setting (s : Setting) (a b c d : Blank) :
    ¬ BadLine (ConfigLine.setting s a b c d).text ∧
      assignment (ConfigLine.setting s a b c d).text = some (s.key, s.value) := by
  set line := (ConfigLine.setting s a b c d).text with hline
  have hmem : '=' ∈ line := by simp [hline, ConfigLine.text]
  have hu : s.key ++ b.1 ≠ [] := by simp [s.key_ne_nil]
  have hhead : (s.key ++ b.1).head hu = s.key.head s.key_ne_nil := List.head_append_of_ne_nil s.key_ne_nil
  -- the line begins with the key, once it is stripped
  have hstrip : strip line = (s.key ++ b.1) ++ '=' :: (c.1 ++ s.value).rdropWhile (isSpace false) := by
    rw [hline, ConfigLine.text, strip_blanks]
    refine Trim.trim_append_cons hu ?_ (by decide) _
    rw [hhead]
    exact Trim.head_of_trim_eq s.key_trimmed s.key_ne_nil
  have hcut : Lines.cut '=' (strip line) = (s.key ++ b.1, (c.1 ++ s.value).rdropWhile (isSpace false)) := by
    rw [hstrip]
    refine Lines.cut_line ?_ _
    intro h
    rcases List.mem_append.1 h with h | h
    · exact s.key_bare.1 h
    · have := blank_space b _ h
      revert this
      decide
  have hkey : strip (s.key ++ b.1) = s.key := by
    rw [strip_append_blank, s.key_trimmed]
  have hvalue : strip ((c.1 ++ s.value).rdropWhile (isSpace false)) = s.value := by
    rw [strip, Trim.trim_rdropWhile, ← strip, strip_blank_append, s.value_trimmed]
  refine ⟨fun h => h.2.2 hmem, ?_⟩
  rw [assignment, hcut, hkey, hvalue, if_neg]
  rw [hstrip]
  rintro (h | h | h)
  · exact absurd h (by simp)
  · rw [List.head?_append_of_ne_nil _ hu, List.head?_append_of_ne_nil _ s.key_ne_nil] at h
    exact s.key_head h
  · exact h hmem

/-- **One line** of a well-formed file. -/
theorem assignment_text (l : ConfigLine) : ¬ BadLine l.text ∧ assignment l.text = l.pair := by
  cases l with
  | setting s a b c d => exact assignment_setting s a b c d
  | blank w =>
    have hnil : strip (ConfigLine.blank w).text = [] := strip_blank w
    exact ⟨fun h => h.1 hnil, if_pos (Or.inl hnil)⟩
  | comment w text =>
    have hhead : (strip (ConfigLine.comment w text).text).head? = some '#' := by
      rw [ConfigLine.text, strip_blank_append, strip, Trim.trim_cons (by decide)]
      rfl
    exact ⟨fun h => h.2.1 hhead, if_pos (Or.inr (Or.inl hhead))⟩

/-- **`parseConfig` reads back what a well-formed file says**: the defaults, overridden by the
last value written for each key. -/
theorem parseConfig_written (ls : List ConfigLine) :
    parseConfig (textOf (ls.map ConfigLine.text)) = override defaultConfig (ls.filterMap ConfigLine.pair) := by
  have hbare : ∀ l ∈ ls.map ConfigLine.text, '\n' ∉ l := by
    intro l hl
    obtain ⟨k, -, rfl⟩ := List.mem_map.1 hl
    exact k.text_bare
  rw [parseConfig_textOf hbare]
  congr 1
  clear hbare
  induction ls with
  | nil => rfl
  | cons l ls ih =>
    obtain ⟨hgood, hpair⟩ := assignment_text l
    rw [List.map_cons, taken_good hgood, hpair, ih]
    cases hl : l.pair with
    | none => rw [List.filterMap_cons_none hl]; rfl
    | some p => rw [List.filterMap_cons_some hl]; rfl

end Vdetelweb
