import Vdetelweb.Lib.Markup
import Vdetelweb.Lib.Runs
import Vdetelweb.Proof.Mgmt
import Vdetelweb.Spec.Page

/-!
# The history read as markup

`add_history` puts the prompt, the command and the response into the page as they are. So
the page shows the text of `HISTORY` as long as no markup begins in any of them and they are ASCII,
and no longer. Responses that come next to each other are only told apart by a space, which they may
have in them: two histories that are shown are told from each other unless they differ in nothing but
how such responses are divided (`shown_iff`).
-/

namespace Vdetelweb

open Markup Vde2Mgmt

variable {n : ℕ} {E : Entities}

/-- The text of a command, tag by tag. -/
theorem htmlText_append (p cmd s : List Char) : htmlText p cmd ++ s =
    '<' :: ("tprfx".toList ++ '>' :: (p ++ '<' :: ("/tprfx".toList ++ '>' ::
      '<' :: ("tcmd".toList ++ '>' :: (cmd ++ '<' :: ("/tcmd".toList ++ '>' :: '\n' :: s)))))) := by
  have h₁ : "<tprfx>".toList = '<' :: ("tprfx".toList ++ ['>']) := by decide
  have h₂ : "</tprfx>".toList = '<' :: ("/tprfx".toList ++ ['>']) := by decide
  have h₃ : "<tcmd>".toList = '<' :: ("tcmd".toList ++ ['>']) := by decide
  have h₄ : "</tcmd>\n".toList = '<' :: ("/tcmd".toList ++ ['>', '\n']) := by decide
  unfold htmlText
  rw [h₁, h₂, h₃, h₄]
  simp only [List.append_assoc, List.cons_append, List.nil_append]

/-- The markup makes it longer. -/
theorem plainText_length_lt (p cmd : List Char) : (plainText p cmd).length < (htmlText p cmd).length := by
  have h := congrArg List.length (htmlText_append p cmd [])
  rw [List.append_nil] at h
  rw [h, plainText]
  simp only [List.length_cons, List.length_append]
  omega

/-! ## Entries -/

/-- What an entry of the histories is about. -/
inductive Entry
  | command (terminalPrefix cmd : List Char)
  | response (res : List Char)
  deriving DecidableEq, Repr

namespace Entry

/-- The text of the entry in `HISTORY`. -/
def plain : Entry → List Char
  | command terminalPrefix cmd => plainText terminalPrefix cmd
  | response res => res

/-- The text of the entry in `HISTORY_HTML`. -/
def html : Entry → List Char
  | command terminalPrefix cmd => htmlText terminalPrefix cmd
  | response res => res

/-- **How the entry is to be read in the page**: the elements and the newline that `add_history`
adds to a command, and every character of the text as itself. -/
def tokens : Entry → List Token
  | command terminalPrefix cmd => .char ' ' :: .tag "tprfx".toList :: terminalPrefix.map .char ++
      .tag "/tprfx".toList :: .tag "tcmd".toList :: cmd.map .char ++ [.tag "/tcmd".toList, .char '\n']
  | response res => .char ' ' :: res.map .char

/-- No markup begins in what was typed or answered. -/
def Inert (E : Entities) : Entry → Prop
  | command terminalPrefix cmd => Markup.Inert E terminalPrefix ∧ Markup.Inert E cmd
  | response res => Markup.Inert E res

/-- It is ASCII. -/
def Ascii : Entry → Prop
  | command terminalPrefix cmd => terminalPrefix.all isAscii = true ∧ cmd.all isAscii = true
  | response res => res.all isAscii = true

/-- An entry can be told from its two texts. -/
theorem eq_of_texts {e f : Entry} {p : List Char} (he : ∀ q cmd, e = command q cmd → q = p)
    (hf : ∀ q cmd, f = command q cmd → q = p) (hp : e.plain = f.plain) (hh : e.html = f.html) : e = f := by
  have hlen : ∀ cmd res, plainText p cmd = res → htmlText p cmd ≠ res := by
    intro cmd res hp hh
    have := plainText_length_lt p cmd
    rw [hp, hh] at this
    exact lt_irrefl _ this
  cases e with
  | command q cmd =>
    obtain rfl := he q cmd rfl
    cases f with
    | command q' cmd' =>
      obtain rfl := hf q' cmd' rfl
      rw [List.append_cancel_left hp]
    | response res => exact absurd hh (hlen cmd res hp)
  | response res =>
    cases f with
    | command q cmd =>
      obtain rfl := hf q cmd rfl
      exact absurd hh.symm (hlen cmd res hp.symm)
    | response res' => exact congrArg response hp

theorem all_markup_iff {a b c d : Bytes} (ha : a.all isAscii = true) (hb : b.all isAscii = true)
    (hc : c.all isAscii = true) (hd : d.all isAscii = true) (p cmd : List Char) :
    (a ++ p ++ b ++ c ++ cmd ++ d).all isAscii = true ↔ p.all isAscii = true ∧ cmd.all isAscii = true := by
  simp [List.all_append, ha, hb, hc, hd]

theorem all_html_iff (e : Entry) : e.html.all isAscii = true ↔ e.Ascii := by
  unfold html Ascii
  cases e with
  | response res => exact Iff.rfl
  | command p cmd =>
    exact all_markup_iff rfl rfl rfl rfl p cmd

/-- **An entry is read as it should be if and only if** no markup begins in it. -/
theorem read_iff {s : List Char} (hs : Stops s) (e : Entry) (ts : List Token) :
    read E (.text 0) (' ' :: e.html ++ s) = e.tokens ++ ts ↔ e.Inert E ∧ read E (.text 0) s = ts := by
  have hspace : ∀ t, read E (.text 0) (' ' :: t) = .char ' ' :: read E (.text 0) t := fun t => read_char rfl
  have hlt : ∀ t, Stops ('<' :: t) := by
    rintro t c ⟨⟩
    decide
  cases e with
  | response res =>
    rw [List.cons_append, hspace, tokens, List.cons_append, List.cons_inj_right]
    exact read_text_iff hs res ts
  | command p cmd =>
    have hhtml : (command p cmd).html = htmlText p cmd := rfl
    have htokens : (command p cmd).tokens ++ ts = .char ' ' :: .tag "tprfx".toList :: (p.map .char ++
        .tag "/tprfx".toList :: .tag "tcmd".toList ::
          (cmd.map .char ++ .tag "/tcmd".toList :: .char '\n' :: ts)) := by
      unfold tokens
      simp only [List.append_assoc, List.cons_append, List.nil_append]
    -- the command, up to its closing tag
    have hcmd : read E (.text 0) (cmd ++ '<' :: ("/tcmd".toList ++ '>' :: '\n' :: s)) =
        cmd.map .char ++ .tag "/tcmd".toList :: .char '\n' :: ts ↔
          Markup.Inert E cmd ∧ read E (.text 0) s = ts := by
      rw [read_text_iff (hlt _), read_open (by decide) (by decide), read_char rfl, List.cons_inj_right,
        List.cons_inj_right]
    rw [hhtml, List.cons_append, htmlText_append, htokens, hspace, read_open (by decide) (by decide),
      List.cons_inj_right, List.cons_inj_right, read_text_iff (hlt _), read_open (by decide) (by decide),
      read_open (by decide) (by decide), List.cons_inj_right, List.cons_inj_right, hcmd, ← and_assoc]
    rfl

/-- The page of some entries. -/
theorem stops_page (es : List Entry) : Stops (es.flatMap fun e => ' ' :: e.html) := by
  cases es with
  | nil => exact stops_nil
  | cons e es =>
    rintro c ⟨⟩
    decide

/-- **A page is read as it should be if and only if** no markup begins in its entries. -/
theorem read_page_iff (es : List Entry) :
    read E (.text 0) (es.flatMap fun e => ' ' :: e.html) = es.flatMap tokens ↔ ∀ e ∈ es, e.Inert E := by
  induction es with
  | nil => simp [Markup.read]
  | cons e es ih =>
    rw [List.flatMap_cons, List.flatMap_cons, read_iff (stops_page es), ih, List.forall_mem_cons]

/-! ## Entries next to each other -/

/-- What a response that is first adds to one before it, and the entries behind it. -/
def glue : List Entry → List Char × List Entry
  | response b :: es => (' ' :: b, es)
  | es => ([], es)

/-- An entry before others, of which a response is joined to one, with a space between them. -/
def join : Entry → List Entry → List Entry
  | command terminalPrefix cmd, es => command terminalPrefix cmd :: es
  | response a, es => response (a ++ (glue es).1) :: (glue es).2

/-- The entries, as far as the page divides them. -/
def joined (es : List Entry) : List Entry := es.foldr join []

theorem joined_cons (e : Entry) (es : List Entry) : joined (e :: es) = join e (joined es) := rfl

theorem glue_inj {es fs : List Entry} (h : glue es = glue fs) : es = fs := by
  rcases es with - | ⟨⟨p, cmd⟩ | a, es⟩ <;> rcases fs with - | ⟨⟨q, cmd'⟩ | b, fs⟩ <;> cases h <;> rfl

theorem mem_of_mem_glue {e : Entry} {es : List Entry} (h : e ∈ (glue es).2) : e ∈ es := by
  rcases es with - | ⟨⟨p, cmd⟩ | a, es⟩
  · exact h
  · exact h
  · exact List.mem_cons_of_mem _ h

/-- What does not divide responses has the same value. -/
theorem flatMap_joined {β : Type} (F : Entry → List β)
    (hF : ∀ a b, F (response (a ++ ' ' :: b)) = F (response a) ++ F (response b)) (es : List Entry) :
    (joined es).flatMap F = es.flatMap F := by
  induction es with
  | nil => rfl
  | cons e es ih =>
    rw [List.flatMap_cons, ← ih, joined_cons]
    cases e with
    | command p cmd => rfl
    | response a =>
      rcases joined es with - | ⟨⟨p, cmd⟩ | b, fs⟩
      · simp [join, glue]
      · simp [join, glue]
      · simp [join, glue, hF]

theorem page_joined (es : List Entry) :
    ((joined es).flatMap fun e => ' ' :: e.html) = es.flatMap fun e => ' ' :: e.html :=
  flatMap_joined _ (fun a b => by simp [html]) es

theorem tokens_joined (es : List Entry) : (joined es).flatMap tokens = es.flatMap tokens :=
  flatMap_joined _ (fun a b => by simp [tokens]) es

/-- **Entries that are joined to the same** and have the same texts are the same. -/
theorem eq_of_joined {es fs : List Entry} (hjoined : joined es = joined fs) (hplain : es.map plain = fs.map plain) :
    es = fs := by
  induction es generalizing fs with
  | nil => exact (List.map_eq_nil_iff.1 hplain.symm).symm
  | cons e es ih =>
    cases fs with
    | nil => cases hplain
    | cons f fs =>
      rw [List.map_cons, List.map_cons] at hplain
      obtain ⟨hhead, hrest⟩ := List.cons.inj hplain
      rw [joined_cons, joined_cons] at hjoined
      cases e with
      | command p cmd =>
        cases f with
        | command q cmd' =>
          obtain ⟨heq, hjoined⟩ := List.cons.inj hjoined
          rw [heq, ih hjoined hrest]
        | response b => exact absurd (List.cons.inj hjoined).1 nofun
      | response a =>
        cases f with
        | command q cmd' => exact absurd (List.cons.inj hjoined).1 nofun
        | response b =>
          obtain rfl : a = b := hhead
          obtain ⟨htext, hleft⟩ := List.cons.inj hjoined
          have hglue : glue (joined es) = glue (joined fs) :=
            Prod.ext (List.append_cancel_left (response.inj htext)) hleft
          rw [ih (glue_inj hglue) hrest]

/-- No response is first. -/
def Leads (es : List Entry) : Prop := ∀ a, es.head? ≠ some (response a)

/-- No two responses are next to each other. -/
def Alternates : List Entry → Prop
  | [] => True
  | command _ _ :: es => Alternates es
  | response _ :: es => Leads es ∧ Alternates es

theorem Alternates.tail {e : Entry} {es : List Entry} (h : Alternates (e :: es)) : Alternates es := by
  cases e with
  | command p cmd => exact h
  | response a => exact h.2

theorem alternates_joined (es : List Entry) : Alternates (joined es) := by
  induction es with
  | nil => trivial
  | cons e es ih =>
    rw [joined_cons]
    cases e with
    | command p cmd => exact ih
    | response a =>
      rcases hes : joined es with - | ⟨⟨p, cmd⟩ | b, fs⟩
      · exact ⟨nofun, trivial⟩
      · rw [hes] at ih
        exact ⟨nofun, ih⟩
      · rw [hes] at ih
        exact ih

/-! ## What the tokens tell -/

/-- There are no tokens, or a space before a tag. -/
def Breaks (ts : List Token) : Prop := ts = [] ∨ ∃ t us, ts = .char ' ' :: .tag t :: us

theorem breaks_of_leads {es : List Entry} (h : Leads es) : Breaks (es.flatMap tokens) := by
  rcases es with - | ⟨⟨p, cmd⟩ | a, es⟩
  · exact Or.inl rfl
  · exact Or.inr ⟨_, _, rfl⟩
  · exact absurd rfl (h a)

/-- Characters before a break. -/
theorem not_breaks {c : Char} {b : List Char} {ts : List Token} (hts : Breaks ts) :
    ¬ Breaks (.char c :: (b.map .char ++ ts)) := by
  rintro (h | ⟨t, us, h⟩)
  · cases h
  · obtain ⟨-, h⟩ := List.cons.inj h
    cases b with
    | cons d b => cases h
    | nil =>
      obtain rfl | ⟨t', us', rfl⟩ := hts <;> cases h

theorem chars_inj {a b : List Char} {ts us : List Token} (hts : Breaks ts) (hus : Breaks us)
    (h : a.map Token.char ++ ts = b.map Token.char ++ us) : a = b ∧ ts = us := by
  induction a generalizing b with
  | nil =>
    cases b with
    | nil => exact ⟨rfl, h⟩
    | cons d b =>
      have hbreak : Breaks (.char d :: (b.map .char ++ us)) := by
        rw [← List.cons_append, ← List.map_cons, ← h]
        exact hts
      exact absurd hbreak (not_breaks hus)
  | cons c a ih =>
    cases b with
    | nil =>
      have hbreak : Breaks (.char c :: (a.map .char ++ ts)) := by
        rw [← List.cons_append, ← List.map_cons, h]
        exact hus
      exact absurd hbreak (not_breaks hts)
    | cons d b =>
      obtain ⟨hcd, hrest⟩ := List.cons.inj h
      obtain ⟨rfl, hts⟩ := ih hrest
      exact ⟨by rw [Token.char.inj hcd], hts⟩

/-- Characters before a tag. -/
theorem chars_tag_inj {a b t u : List Char} {ts us : List Token}
    (h : a.map Token.char ++ .tag t :: ts = b.map Token.char ++ .tag u :: us) : a = b ∧ ts = us := by
  induction a generalizing b with
  | nil =>
    cases b with
    | nil => exact ⟨rfl, (List.cons.inj h).2⟩
    | cons d b => cases h
  | cons c a ih =>
    cases b with
    | nil => cases h
    | cons d b =>
      obtain ⟨hcd, hrest⟩ := List.cons.inj h
      obtain ⟨rfl, hts⟩ := ih hrest
      exact ⟨by rw [Token.char.inj hcd], hts⟩

/-- It has a text, if it is a response. -/
def Full : Entry → Prop
  | command _ _ => True
  | response res => res ≠ []

theorem full_joined {es : List Entry} (hes : ∀ e ∈ es, e.Full) : ∀ e ∈ joined es, e.Full := by
  induction es with
  | nil => exact hes
  | cons e es ih =>
    rw [List.forall_mem_cons] at hes
    have hrest := ih hes.2
    rw [joined_cons]
    cases e with
    | command p cmd => exact List.forall_mem_cons.2 ⟨trivial, hrest⟩
    | response a =>
      have ha : a ≠ [] := hes.1
      refine List.forall_mem_cons.2 ⟨?_, fun f hf => hrest f ?_⟩
      · exact List.append_ne_nil_of_left_ne_nil ha _
      · exact mem_of_mem_glue hf

theorem command_tokens (p cmd : List Char) (ts : List Token) : (command p cmd).tokens ++ ts =
    .char ' ' :: .tag "tprfx".toList :: (p.map .char ++ .tag "/tprfx".toList :: .tag "tcmd".toList ::
      (cmd.map .char ++ .tag "/tcmd".toList :: .char '\n' :: ts)) := by
  unfold tokens
  simp only [List.append_assoc, List.cons_append, List.nil_append]

/-- **Entries that alternate** are told by their tokens. -/
theorem eq_of_tokens {es fs : List Entry} (hes : Alternates es) (hfs : Alternates fs) (hfull : ∀ e ∈ es, e.Full)
    (hfull' : ∀ f ∈ fs, f.Full) (h : es.flatMap tokens = fs.flatMap tokens) : es = fs := by
  have hmixed : ∀ {p cmd a : List Char} {ts us : List Token}, a ≠ [] →
      (command p cmd).tokens ++ ts ≠ (response a).tokens ++ us := by
    intro p cmd a ts us ha heq
    obtain ⟨c, a, rfl⟩ := List.exists_cons_of_ne_nil ha
    cases heq
  induction es generalizing fs with
  | nil =>
    rcases fs with - | ⟨⟨p, cmd⟩ | b, fs⟩
    · rfl
    · cases h
    · cases h
  | cons e es ih =>
    rw [List.forall_mem_cons] at hfull
    cases fs with
    | nil => rcases e with ⟨p, cmd⟩ | a <;> cases h
    | cons f fs =>
      rw [List.forall_mem_cons] at hfull'
      rw [List.flatMap_cons, List.flatMap_cons] at h
      cases e with
      | command p cmd =>
        cases f with
        | command p' cmd' =>
          rw [command_tokens, command_tokens] at h
          obtain ⟨rfl, hcmd⟩ := chars_tag_inj (List.cons.inj (List.cons.inj h).2).2
          obtain ⟨rfl, hrest⟩ := chars_tag_inj (List.cons.inj hcmd).2
          rw [ih hes.tail hfs.tail hfull.2 hfull'.2 (List.cons.inj hrest).2]
        | response b => exact absurd h (hmixed hfull'.1)
      | response a =>
        cases f with
        | command p cmd => exact absurd h.symm (hmixed hfull.1)
        | response b =>
          obtain ⟨rfl, hrest⟩ := chars_inj (breaks_of_leads hes.1) (breaks_of_leads hfs.1) (List.cons.inj h).2
          rw [ih hes.2 hfs.2 hfull.2 hfull'.2 hrest]

/-- **The tokens of a page tell its entries**, as far as it divides them. -/
theorem joined_of_tokens {es fs : List Entry} (hfull : ∀ e ∈ es, e.Full) (hfull' : ∀ f ∈ fs, f.Full)
    (h : es.flatMap tokens = fs.flatMap tokens) : joined es = joined fs := by
  rw [← tokens_joined es, ← tokens_joined fs] at h
  exact eq_of_tokens (alternates_joined es) (alternates_joined fs) (full_joined hfull) (full_joined hfull') h

end Entry

/-! ## The page -/

/-- The histories have these entries. -/
structure Recorded (m : Vde2Mgmt n) (es : List Entry) : Prop where
  plain : m.HISTORY.map PyStr.text = es.map Entry.plain
  html : m.HISTORY_HTML.map PyStr.text = es.map Entry.html
  terminalPrefix : ∀ p cmd, .command p cmd ∈ es → p = m.SYS_INFO.terminalPrefix
  decoded : ∀ line ∈ m.HISTORY_HTML, line.unicode = true → line.text.all isAscii = true

/-- **The page shows the history**: it is made, and read as markup it is the text of `HISTORY`, between
what `add_history` adds to each command. -/
def Shown (safe : SafeFilter) (E : Entities) (m : Vde2Mgmt n) : Prop :=
  ∃ es page, Recorded m es ∧ historyPage safe m.HISTORY_HTML = some page ∧
    read E (.text 0) page = es.flatMap Entry.tokens

/-- **The page tells the histories**: they have the same text if it is the same page. -/
def Told (safe : SafeFilter) (m m' : Vde2Mgmt n) : Prop :=
  ∀ page, historyPage safe m.HISTORY_HTML = some page → historyPage safe m'.HISTORY_HTML = some page →
    m.HISTORY.map PyStr.text = m'.HISTORY.map PyStr.text

theorem Recorded.unique {m : Vde2Mgmt n} {es fs : List Entry} (he : Recorded m es) (hf : Recorded m fs) :
    es = fs := by
  have hplain := he.plain.symm.trans hf.plain
  have hhtml := he.html.symm.trans hf.html
  have hep := he.terminalPrefix
  have hfp := hf.terminalPrefix
  clear he hf
  induction es generalizing fs with
  | nil => exact (List.map_eq_nil_iff.1 hplain.symm).symm
  | cons e es ih =>
    cases fs with
    | nil => cases hplain
    | cons f fs =>
      obtain ⟨hp, hplain⟩ := List.cons.inj hplain
      obtain ⟨hh, hhtml⟩ := List.cons.inj hhtml
      have hef : e = f := by
        refine Entry.eq_of_texts (p := m.SYS_INFO.terminalPrefix) ?_ ?_ hp hh
        · rintro q cmd rfl
          exact hep q cmd (List.mem_cons_self ..)
        · rintro q cmd rfl
          exact hfp q cmd (List.mem_cons_self ..)
      rw [hef, ih hplain hhtml (fun q cmd h => hep q cmd (List.mem_cons_of_mem _ h))
        fun q cmd h => hfp q cmd (List.mem_cons_of_mem _ h)]

/-- An entry that is ASCII goes into the page, and no other byte string does. -/
theorem SafeFilter.render_eq (safe : SafeFilter) {line : PyStr}
    (h : line.unicode = true → line.text.all isAscii = true) :
    safe.render line = if line.text.all isAscii = true then some line.text else none := by
  by_cases ha : line.text.all isAscii = true
  · rw [if_pos ha, safe.render_text line (Or.inr ha)]
  · have hu : line.unicode = false := Bool.eq_false_iff.2 fun hu => ha (h hu)
    rw [if_neg ha, safe.render_raise line hu ha]

theorem historyPage_eq (safe : SafeFilter) {history : List PyStr}
    (h : ∀ line ∈ history, line.unicode = true → line.text.all isAscii = true) (page : List Char) :
    historyPage safe history = some page ↔
      (∀ line ∈ history, line.text.all isAscii = true) ∧ page = history.flatMap fun line => ' ' :: line.text := by
  induction history generalizing page with
  | nil =>
    constructor
    · rintro ⟨⟩
      exact ⟨nofun, rfl⟩
    · rintro ⟨-, rfl⟩
      rfl
  | cons line history ih =>
    rw [List.forall_mem_cons] at h
    rw [historyPage, safe.render_eq h.1, List.forall_mem_cons, List.flatMap_cons]
    by_cases ha : line.text.all isAscii = true
    · cases hrest : historyPage safe history with
      | none =>
        have hno : ¬ ∀ l ∈ history, l.text.all isAscii = true := by
          intro hall
          have := (ih h.2 _).2 ⟨hall, rfl⟩
          rw [hrest] at this
          cases this
        rw [if_pos ha]
        exact ⟨nofun, fun hall => absurd hall.1.2 hno⟩
      | some rest =>
        obtain ⟨hall, rfl⟩ := (ih h.2 rest).1 hrest
        rw [if_pos ha]
        constructor
        · rintro ⟨⟩
          exact ⟨⟨ha, hall⟩, rfl⟩
        · rintro ⟨-, rfl⟩
          rfl
    · rw [if_neg ha]
      exact ⟨nofun, fun hall => absurd hall.1.1 ha⟩

/-- **When the page is made**, and what it is. -/
theorem Recorded.page_iff {m : Vde2Mgmt n} {es : List Entry} (h : Recorded m es) (safe : SafeFilter)
    (page : List Char) : historyPage safe m.HISTORY_HTML = some page ↔
      (∀ e ∈ es, e.Ascii) ∧ page = es.flatMap fun e => ' ' :: e.html := by
  rw [historyPage_eq safe h.decoded]
  have hall : (∀ line ∈ m.HISTORY_HTML, line.text.all isAscii = true) ↔ ∀ e ∈ es, e.Ascii := by
    have hleft := List.forall_mem_map (f := PyStr.text) (l := m.HISTORY_HTML) (P := fun t => t.all isAscii = true)
    have hright := List.forall_mem_map (f := Entry.html) (l := es) (P := fun t => t.all isAscii = true)
    rw [← hleft, h.html, hright]
    exact forall₂_congr fun e _ => e.all_html_iff
  have htext : (m.HISTORY_HTML.flatMap fun line => ' ' :: line.text) = es.flatMap fun e => ' ' :: e.html := by
    have := congrArg (List.flatMap (' ' :: ·)) h.html
    rwa [List.flatMap_map, List.flatMap_map] at this
  rw [hall, htext]

/-- **When the page shows the history.** -/
theorem Recorded.shown {m : Vde2Mgmt n} {es : List Entry} (h : Recorded m es) (safe : SafeFilter) :
    Shown safe E m ↔ ∀ e ∈ es, e.Inert E ∧ e.Ascii := by
  constructor
  · rintro ⟨fs, page, hf, hpage, hread⟩
    obtain rfl := h.unique hf
    obtain ⟨hascii, rfl⟩ := (h.page_iff safe page).1 hpage
    have hinert := (Entry.read_page_iff es).1 hread
    exact fun e he => ⟨hinert e he, hascii e he⟩
  · intro hclean
    refine ⟨es, _, h, (h.page_iff safe _).2 ⟨fun e he => (hclean e he).2, rfl⟩, ?_⟩
    exact (Entry.read_page_iff es).2 fun e he => (hclean e he).1

/-- **When the page tells histories that it shows.** -/
theorem Recorded.told_iff {m m' : Vde2Mgmt n} {es fs : List Entry} (h : Recorded m es) (h' : Recorded m' fs)
    {safe : SafeFilter} (hshown : Shown safe E m) (hshown' : Shown safe E m') (hfull : ∀ e ∈ es, e.Full)
    (hfull' : ∀ f ∈ fs, f.Full) :
    Told safe m m' ↔ (Entry.joined es = Entry.joined fs → es = fs) := by
  have hclean := (h.shown safe).1 hshown
  have hclean' := (h'.shown safe).1 hshown'
  constructor
  · intro htold hjoined
    have hpage : (es.flatMap fun e => ' ' :: e.html) = fs.flatMap fun e => ' ' :: e.html := by
      rw [← Entry.page_joined es, hjoined, Entry.page_joined fs]
    have hplain := htold _ ((h.page_iff safe _).2 ⟨fun e he => (hclean e he).2, rfl⟩)
      ((h'.page_iff safe _).2 ⟨fun e he => (hclean' e he).2, hpage⟩)
    rw [h.plain, h'.plain] at hplain
    exact Entry.eq_of_joined hjoined hplain
  · intro hsame page hpage hpage'
    obtain ⟨-, rfl⟩ := (h.page_iff safe page).1 hpage
    obtain ⟨-, hpage⟩ := (h'.page_iff safe _).1 hpage'
    -- the same page is read to the same tokens
    have htokens : es.flatMap Entry.tokens = fs.flatMap Entry.tokens := by
      rw [← (Entry.read_page_iff (E := E) es).2 fun e he => (hclean e he).1, hpage,
        (Entry.read_page_iff fs).2 fun e he => (hclean' e he).1]
    obtain rfl := hsame (Entry.joined_of_tokens hfull hfull' htokens)
    rw [h.plain, h'.plain]

/-! ## One call -/

/-- **The condition on a call**: if it makes entries, no markup begins in the prompt and the
command, nor in the response, and they are ASCII. -/
def Harmless (E : Entities) (m : Vde2Mgmt n) (cmd : PyStr) : Prop :=
  ∀ r, cmd.strip.sendable = true → m.next = .ret r →
    cmd.strip.text = [] ∨ promptable m.SYS_INFO.terminalPrefix cmd.strip = true →
    (cmd.strip.text ≠ [] →
      (Inert E m.SYS_INFO.terminalPrefix ∧ m.SYS_INFO.terminalPrefix.all isAscii = true) ∧
        Inert E cmd.strip.text ∧ cmd.strip.text.all isAscii = true) ∧
    Inert E r.text ∧ r.text.all isAscii = true

/-- The entries for a command and its response. -/
def entriesOf (terminalPrefix cmd res : List Char) : List Entry :=
  (if cmd = [] then [] else [.command terminalPrefix cmd]) ++ if res = [] then [] else [.response res]

/-- The entries that a call makes. -/
def put (m : Vde2Mgmt n) (cmd : PyStr) : List Entry :=
  match m.next with
  | .ret r =>
    if cmd.strip.sendable = true ∧
        (cmd.strip.text = [] ∨ promptable m.SYS_INFO.terminalPrefix cmd.strip = true) then
      entriesOf m.SYS_INFO.terminalPrefix cmd.strip.text r.text
    else []
  | _ => []

theorem entries_map {text : Entry → List Char} (htext : ∀ res, text (.response res) = res) (p : List Char)
    (cmd : PyStr) (res : Bytes) :
    (entries (text (.command p cmd.text)) cmd res).map PyStr.text = (entriesOf p cmd.text res).map text := by
  by_cases hc : cmd.text = [] <;> by_cases hr : res = [] <;> simp [entries, entriesOf, hc, hr, htext]

theorem mem_entriesOf {p cmd res : List Char} {e : Entry} : e ∈ entriesOf p cmd res ↔
    cmd ≠ [] ∧ e = .command p cmd ∨ res ≠ [] ∧ e = .response res := by
  by_cases hc : cmd = [] <;> by_cases hr : res = [] <;> simp [entriesOf, hc, hr]

theorem clean_entriesOf {p cmd res : List Char} : (∀ e ∈ entriesOf p cmd res, e.Inert E ∧ e.Ascii) ↔
    (cmd ≠ [] → (Inert E p ∧ p.all isAscii = true) ∧ Inert E cmd ∧ cmd.all isAscii = true) ∧
      Inert E res ∧ res.all isAscii = true := by
  constructor
  · intro h
    refine ⟨fun hc => ?_, ?_⟩
    · obtain ⟨⟨hp, hcmd⟩, hp', hcmd'⟩ := h _ (mem_entriesOf.2 (Or.inl ⟨hc, rfl⟩))
      exact ⟨⟨hp, hp'⟩, hcmd, hcmd'⟩
    · by_cases hr : res = []
      · rw [hr]
        exact ⟨inert_nil, rfl⟩
      · exact h _ (mem_entriesOf.2 (Or.inr ⟨hr, rfl⟩))
  · rintro ⟨hc, hr⟩ e he
    obtain ⟨hne, rfl⟩ | ⟨-, rfl⟩ := mem_entriesOf.1 he
    · obtain ⟨⟨hp, hp'⟩, hcmd, hcmd'⟩ := hc hne
      exact ⟨⟨hp, hcmd⟩, hp', hcmd'⟩
    · exact hr

/-- **A call is harmless if and only if** the entries that it makes are. -/
theorem harmless_iff (m : Vde2Mgmt n) (cmd : PyStr) :
    Harmless E m cmd ↔ ∀ e ∈ put m cmd, e.Inert E ∧ e.Ascii := by
  unfold Harmless put
  cases hn : m.next with
  | raise e l => exact ⟨fun _ => nofun, fun _ r _ hr => nomatch hr⟩
  | block => exact ⟨fun _ => nofun, fun _ r _ hr => nomatch hr⟩
  | ret r =>
    dsimp only
    split
    · rename_i hput
      rw [clean_entriesOf]
      constructor
      · exact fun h => h r hput.1 rfl hput.2
      · rintro h r' - hr -
        rwa [← Effect.Out.ret.inj hr]
    · rename_i hno
      constructor
      · exact fun _ => nofun
      · exact fun _ r' hs _ hp => absurd ⟨hs, hp⟩ hno

theorem full_put (m : Vde2Mgmt n) (cmd : PyStr) : ∀ e ∈ put m cmd, e.Full := by
  unfold put
  intro e he
  split at he
  · split at he
    · obtain ⟨-, rfl⟩ | ⟨hr, rfl⟩ := mem_entriesOf.1 he
      · trivial
      · exact hr
    · cases he
  · cases he

/-- The object after a call of `send`. -/
def afterSend (m : Vde2Mgmt n) (cmd : PyStr) : Vde2Mgmt n := (send cmd m).2

/-- An entry with the text of a command that is sent. -/
theorem ascii_command {p : Bytes} {cmd : PyStr} (hs : cmd.sendable = true) (hp : promptable p cmd = true)
    (hu : cmd.unicode = true) : (htmlText p cmd.text).all isAscii = true := by
  unfold PyStr.sendable at hs
  unfold promptable at hp
  rw [hu] at hs hp
  exact (Entry.all_markup_iff rfl rfl rfl rfl p cmd.text).2 ⟨hp, hs⟩

theorem decoded_entries {p res : Bytes} {cmd : PyStr} (hs : cmd.sendable = true)
    (hp : cmd.text = [] ∨ promptable p cmd = true) :
    ∀ line ∈ entries (htmlText p cmd.text) cmd res, line.unicode = true → line.text.all isAscii = true := by
  intro line hline hu
  unfold entries at hline
  rcases List.mem_append.1 hline with hline | hline
  · split at hline
    · cases hline
    · rename_i hne
      obtain rfl := List.mem_singleton.1 hline
      exact ascii_command hs (hp.resolve_left hne) hu
  · split at hline
    · cases hline
    · obtain rfl := List.mem_singleton.1 hline
      cases hu

/-- **What a call of `send` adds** to the histories. -/
theorem Recorded.send {m : Vde2Mgmt n} {es : List Entry} (h : Recorded m es) (cmd : PyStr) :
    Recorded (afterSend m cmd) (es ++ put m cmd) := by
  have hinfo := send_info cmd m
  -- a call that makes no entries
  have hnone : put m cmd = [] → (afterSend m cmd).HISTORY = m.HISTORY →
      (afterSend m cmd).HISTORY_HTML = m.HISTORY_HTML → Recorded (afterSend m cmd) (es ++ put m cmd) := by
    intro hput hplain hhtml
    rw [hput, List.append_nil]
    refine ⟨by rw [hplain, h.plain], by rw [hhtml, h.html], fun p c hpc => ?_, by rw [hhtml]; exact h.decoded⟩
    rw [afterSend, hinfo]
    exact h.terminalPrefix p c hpc
  obtain ⟨hs, r, hn, ⟨hp, hsend⟩ | ⟨hp, hsend⟩⟩ | ⟨-, hno, hsend⟩ | ⟨hs, hsend⟩ := send_cases cmd m
  · have hput : put m cmd = entriesOf m.SYS_INFO.terminalPrefix cmd.strip.text r.text := by
      rw [put, hn]
      exact if_pos ⟨hs, hp⟩
    rw [afterSend, hsend, hput]
    refine ⟨?_, ?_, ?_, ?_⟩
    · rw [List.map_append, ← entries_map (fun _ => rfl), ← h.plain, ← List.map_append]
      rfl
    · rw [List.map_append, ← entries_map (fun _ => rfl), ← h.html, ← List.map_append]
      rfl
    · intro p c hpc
      rcases List.mem_append.1 hpc with hpc | hpc
      · exact h.terminalPrefix p c hpc
      · obtain ⟨-, heq⟩ | ⟨-, heq⟩ := mem_entriesOf.1 hpc
        · exact (Entry.command.inj heq).1
        · cases heq
    · intro line hline
      rcases List.mem_append.1 hline with hline | hline
      · exact h.decoded line hline
      · exact decoded_entries hs hp line hline
  · refine hnone ?_ (by rw [afterSend, hsend]; rfl) (by rw [afterSend, hsend]; rfl)
    rw [put, hn]
    exact if_neg fun hput => hp hput.2
  · refine hnone ?_ (by rw [afterSend, hsend]; rfl) (by rw [afterSend, hsend]; rfl)
    unfold put
    split
    · rename_i r hr
      exact absurd hr (hno r)
    · rfl
  · refine hnone ?_ (by rw [afterSend, hsend]; rfl) (by rw [afterSend, hsend]; rfl)
    unfold put
    split
    · exact if_neg fun hput => hs hput.1
    · rfl

/-! ## Runs -/

/-- The object before any call. -/
def fresh (s : Stream n) (info : SysInfo) : Vde2Mgmt n := { socket := s, SYS_INFO := info }

/-- The entries that a run makes. -/
def entriesMade (m : Vde2Mgmt n) : List PyStr → List Entry
  | [] => []
  | cmd :: cmds => put m cmd ++ entriesMade (afterSend m cmd) cmds

theorem Recorded.run {m : Vde2Mgmt n} {es : List Entry} (h : Recorded m es) (cmds : List PyStr) :
    Recorded (cmds.foldl afterSend m) (es ++ entriesMade m cmds) := by
  induction cmds generalizing m es with
  | nil => rwa [entriesMade, List.append_nil]
  | cons cmd cmds ih =>
    have hrest := ih (h.send cmd)
    rwa [List.append_assoc] at hrest

theorem recorded_fresh (s : Stream n) (info : SysInfo) (cmds : List PyStr) :
    Recorded (cmds.foldl afterSend (fresh s info)) (entriesMade (fresh s info) cmds) := by
  have hstart : Recorded (fresh s info) [] := ⟨rfl, rfl, nofun, nofun⟩
  exact hstart.run cmds

theorem full_entriesMade (m : Vde2Mgmt n) (cmds : List PyStr) : ∀ e ∈ entriesMade m cmds, e.Full := by
  induction cmds generalizing m with
  | nil => nofun
  | cons cmd cmds ih =>
    intro e he
    rcases List.mem_append.1 he with he | he
    · exact full_put m cmd e he
    · exact ih _ e he

/-- The calls of a run are harmless if the entries that it makes are. -/
theorem along_harmless_iff (m : Vde2Mgmt n) (cmds : List PyStr) :
    Runs.Along afterSend (Harmless E) m cmds ↔ ∀ e ∈ entriesMade m cmds, e.Inert E ∧ e.Ascii := by
  induction cmds generalizing m with
  | nil => exact ⟨fun _ => nofun, fun _ => trivial⟩
  | cons cmd cmds ih =>
    rw [Runs.Along, ih, harmless_iff, entriesMade]
    exact List.forall_mem_append.symm

/-- **The pages of two runs show their histories and tell them from each other if and only if** every call
is harmless, and the entries do not differ only in how responses next to each other are divided. -/
theorem shown_iff (safe : SafeFilter) (E : Entities) (s s' : Stream n) (info info' : SysInfo)
    (cmds cmds' : List PyStr) :
    (Shown safe E (cmds.foldl afterSend (fresh s info)) ∧ Shown safe E (cmds'.foldl afterSend (fresh s' info')) ∧
        Told safe (cmds.foldl afterSend (fresh s info)) (cmds'.foldl afterSend (fresh s' info'))) ↔
      Runs.Along afterSend (Harmless E) (fresh s info) cmds ∧
        Runs.Along afterSend (Harmless E) (fresh s' info') cmds' ∧
        (Entry.joined (entriesMade (fresh s info) cmds) = Entry.joined (entriesMade (fresh s' info') cmds') →
          entriesMade (fresh s info) cmds = entriesMade (fresh s' info') cmds') := by
  have h := recorded_fresh s info cmds
  have h' := recorded_fresh s' info' cmds'
  rw [along_harmless_iff, along_harmless_iff, ← h.shown safe, ← h'.shown safe]
  refine and_congr_right fun hshown => and_congr_right fun hshown' => ?_
  exact h.told_iff h' hshown hshown' (full_entriesMade _ _) (full_entriesMade _ _)

/-- A filter that decodes byte strings as ASCII. -/
def SafeFilter.ascii : SafeFilter where
  render line := if line.unicode = true ∨ line.text.all isAscii = true then some line.text else none
  render_text _ h := if_pos h
  render_raise line hu ha := if_neg fun h => h.elim (fun hu' => by rw [hu] at hu'; cases hu') ha

/-- A command that reads as a tag. -/
theorem shown_bold : ¬ ∀ (safe : SafeFilter) (E : Entities) (s s' : Stream 1024) (info info' : SysInfo)
    (cmds cmds' : List PyStr),
    Shown safe E (cmds.foldl afterSend (fresh s info)) ∧ Shown safe E (cmds'.foldl afterSend (fresh s' info')) ∧
      Told safe (cmds.foldl afterSend (fresh s info)) (cmds'.foldl afterSend (fresh s' info')) := by
  intro h
  set E : Entities := ⟨[], by simp⟩
  set s : Stream 1024 := ⟨[⟨"1000 Success\n".toList, by decide⟩], false⟩
  set info : SysInfo := ⟨"vde: ".toList, ⟨[], none⟩⟩
  have hshown := (h SafeFilter.ascii E s s info info [.str "<b>".toList] []).1
  have hclean := ((recorded_fresh s info _).shown _).1 hshown
  obtain ⟨r, hr⟩ := (parsable_iff (fresh s info)).1 ⟨⟨_, _, _, _⟩, rfl⟩
  have hmem : .command info.terminalPrefix "<b>".toList ∈ entriesMade (fresh s info) [.str "<b>".toList] := by
    rw [entriesMade, put, hr]
    refine List.mem_append_left _ ?_
    dsimp only
    rw [if_pos ⟨rfl, Or.inr rfl⟩]
    exact mem_entriesOf.2 (Or.inl ⟨by decide, rfl⟩)
  have hinert := (hclean _ hmem).1.2 _ (List.suffix_refl _)
  revert hinert
  decide

end Vdetelweb
