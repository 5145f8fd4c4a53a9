import BranchTalk.Desktop.Main.Settling

set_option autoImplicit false

/-! # What the search field keeps of the text that is typed

The query is the trimmed text of the field, and a query that changes is written back into the field.
White space at the end survives this as long as it is typed: the query does not change then. But when a
deletion bares white space, the query does change, and the write-back takes the white space away. From
there on the field is behind the text that was typed, and the first key that does not just add spaces,
or take some of those away again, shows it. -/

namespace BranchTalk.Desktop.Main

open ChannelListModel (setSearchQuery)
open Emission
open Trimming

variable {text : QtText}

/-! ## The field and the query -/

/-- The field after a key: what the key makes of it, trimmed if that changes the query. -/
def shown (text : QtText) (field : QString) (key : Key) : QString :=
  if text.trimmed (edit field key) = text.trimmed field then edit field key
  else text.trimmed (edit field key)

/-- The field after some keys. -/
def fieldText (text : QtText) (field : QString) (keys : List Key) : QString :=
  keys.foldl (shown text) field

theorem setText_edit (text : QtText) (depth : ℕ) {m : ChannelListModel} {field : QString}
    (h : m.searchQuery = text.trimmed field) (key : Key) :
    ∃ m', setText text (depth + 2) (edit field key) (m, field) = some (m', shown text field key) ∧
      m'.searchQuery = text.trimmed (shown text field key) := by
  rw [setText_eq, shown, h]
  by_cases hsame : field = edit field key
  · rw [if_pos hsame, if_pos (congrArg text.trimmed hsame.symm), ← hsame]
    exact ⟨m, rfl, h⟩
  · rw [if_neg hsame]
    by_cases hquery : text.trimmed field = text.trimmed (edit field key)
    · rw [if_pos hquery, if_pos hquery.symm]
      exact ⟨m, rfl, h.trans hquery⟩
    · rw [if_neg hquery, if_neg (Ne.symm hquery)]
      exact ⟨_, rfl, (text.trimmed_trimmed _).symm⟩

/-- **The query is the trimmed text of the field**, after every sequence of keys. -/
theorem typed_eq (text : QtText) (depth : ℕ) (m : ChannelListModel) (keys : List Key) :
    ∃ m', typed text (depth + 2) (m.search []) keys = some (m', fieldText text [] keys) ∧
      m'.searchQuery = text.trimmed (fieldText text [] keys) := by
  have hrun : ∀ (m : ChannelListModel) (field : QString), m.searchQuery = text.trimmed field →
      ∃ m', keys.foldl (fun panel key => panel.bind fun panel =>
          setText text (depth + 2) (edit panel.2 key) panel) (some (m, field)) =
          some (m', fieldText text field keys) ∧
        m'.searchQuery = text.trimmed (fieldText text field keys) := by
    induction keys with
    | nil => exact fun m field h => ⟨m, rfl, h⟩
    | cons key rest ih =>
        intro m field h
        obtain ⟨m', hset, hquery⟩ := setText_edit text depth h key
        rw [List.foldl_cons, Option.bind_some, hset]
        exact ih m' _ hquery
  exact hrun (m.search []) [] rfl

/-! ## Field and plain text in step -/

/-- The field lacks white space at the front only. -/
def Synced (text : QtText) (plain field : QString) : Prop :=
  ∃ lead, Blank text.isSpace lead ∧ plain = lead ++ field

/-- The last character is not white space, and without it the text ends with white space that stands
    after something else. -/
def Bares (text : QtText) (plain : QString) : Prop :=
  ∃ front space last, plain = front ++ [space, last] ∧ text.isSpace space = true ∧
    text.isSpace last = false ∧ ¬ Blank text.isSpace front

theorem Synced.trimmed_eq {plain field : QString} (h : Synced text plain field) :
    text.trimmed plain = text.trimmed field := by
  obtain ⟨lead, hlead, rfl⟩ := h
  simpa [QtText.trimmed_eq] using trim_append_blank hlead blank_nil field

theorem synced_append {plain field : QString} (h : Synced text plain field) (c : QChar) :
    Synced text (edit plain (.append c)) (shown text field (.append c)) := by
  obtain ⟨lead, hlead, rfl⟩ := h
  unfold shown
  split
  · exact ⟨lead, hlead, List.append_assoc ..⟩
  · next hquery =>
      have hc : text.isSpace c = false := by
        rw [← Bool.not_eq_true]
        exact fun hblank => hquery (trim_append_blank_right (blank_singleton_iff.mpr hblank))
      have htrim : text.trimmed (edit field (.append c)) = field.dropWhile text.isSpace ++ [c] :=
        trim_concat hc field
      refine ⟨lead ++ field.takeWhile text.isSpace, ?_, ?_⟩
      · exact blank_append_iff.mpr ⟨hlead, fun x hx => List.mem_takeWhile_imp hx⟩
      · rw [htrim, List.append_assoc, ← List.append_assoc (field.takeWhile _),
          List.takeWhile_append_dropWhile, edit, List.append_assoc]

theorem synced_deleteLast {plain field : QString} (h : Synced text plain field)
    (hbares : ¬ Bares text plain) :
    Synced text (edit plain .deleteLast) (shown text field .deleteLast) := by
  obtain ⟨lead, hlead, rfl⟩ := h
  rcases List.eq_nil_or_concat field with rfl | ⟨init, c, rfl⟩
  · refine ⟨lead.dropLast, fun x hx => hlead x (List.dropLast_subset lead hx), ?_⟩
    simp [edit, shown]
  rw [List.concat_eq_append] at hbares ⊢
  have hplain : edit (lead ++ (init ++ [c])) .deleteLast = lead ++ init := by
    rw [edit, ← List.append_assoc, List.dropLast_concat]
  have hfield : edit (init ++ [c]) .deleteLast = init := List.dropLast_concat
  unfold shown
  rw [hplain, hfield]
  split
  · exact ⟨lead, hlead, rfl⟩
  next hquery =>
  have hc : text.isSpace c = false := by
    rw [← Bool.not_eq_true]
    exact fun hblank => hquery (trim_append_blank_right (blank_singleton_iff.mpr hblank)).symm
  obtain ⟨before, after, hinit, hbefore, hafter⟩ := exists_eq_trim text.isSpace init
  by_cases hnone : text.trimmed init = []
  · rw [hnone]
    have hblank : Blank text.isSpace init := trim_eq_nil_iff.mp hnone
    exact ⟨lead ++ init, blank_append_iff.mpr ⟨hlead, hblank⟩, (List.append_nil _).symm⟩
  rcases List.eq_nil_or_concat after with rfl | ⟨spaces, space, rfl⟩
  · refine ⟨lead ++ before, blank_append_iff.mpr ⟨hlead, hbefore⟩, ?_⟩
    rw [List.append_nil] at hinit
    rw [List.append_assoc]
    exact congrArg (lead ++ ·) hinit
  · -- white space is left at the end, behind something else
    refine absurd ⟨lead ++ before ++ text.trimmed init ++ spaces, space, c, ?_,
      hafter space (by simp), hc, ?_⟩ hbares
    · conv_lhs => rw [hinit]
      simp [QtText.trimmed_eq]
    · intro hall
      simp only [blank_append_iff] at hall
      have hblank : trim text.isSpace (text.trimmed init) = [] := trim_eq_nil_iff.mpr hall.1.2
      rw [QtText.trimmed_eq, trim_trim] at hblank
      exact hnone hblank

/-! ## The field behind -/

/-- Two texts that differ by white space eaten behind `core`. The spaces typed since stand in both. -/
structure Eaten (text : QtText) where
  lead : QString
  core : QString
  eaten : QString
  spaces : QString
  blank_lead : Blank text.isSpace lead
  tight_core : Tight text.isSpace core
  core_ne : core ≠ []
  blank_eaten : Blank text.isSpace eaten
  eaten_ne : eaten ≠ []
  blank_spaces : Blank text.isSpace spaces

namespace Eaten

/-- The plain text when the white space was eaten. -/
def base (e : Eaten text) : QString := e.lead ++ e.core ++ e.eaten

def plain (e : Eaten text) : QString := e.base ++ e.spaces

def field (e : Eaten text) : QString := e.core ++ e.spaces

theorem trimmed_field (e : Eaten text) : text.trimmed e.field = e.core := by
  rw [QtText.trimmed_eq, field, trim_append_blank_right e.blank_spaces, trim_of_tight e.tight_core]

theorem trimmed_plain (e : Eaten text) : text.trimmed e.plain = e.core := by
  rw [QtText.trimmed_eq, plain, base, List.append_assoc (e.lead ++ e.core),
    trim_append_blank e.blank_lead (blank_append_iff.mpr ⟨e.blank_eaten, e.blank_spaces⟩),
    trim_of_tight e.tight_core]

end Eaten

/-- The field is behind since the plain text was `base`. -/
def Behind (text : QtText) (base plain field : QString) : Prop :=
  ∃ e : Eaten text, e.base = base ∧ e.plain = plain ∧ e.field = field

theorem Behind.trimmed_eq {base plain field : QString} (h : Behind text base plain field) :
    text.trimmed plain = text.trimmed field := by
  obtain ⟨e, -, rfl, rfl⟩ := h
  rw [e.trimmed_plain, e.trimmed_field]

/-- The field, when white space is bared at its end, is set to what stands before. -/
theorem shown_deleteLast_of_space {a : QString} {space last : UInt16}
    (hspace : text.isSpace space = true) (hlast : text.isSpace last = false)
    (hcore : text.trimmed a ≠ []) :
    shown text (a ++ [space, last]) .deleteLast = text.trimmed a := by
  obtain ⟨before, after, ha, hbefore, -⟩ := exists_eq_trim text.isSpace a
  have hedit : edit (a ++ [space, last]) .deleteLast = a ++ [space] := by
    rw [edit, List.dropLast_append_of_ne_nil (by simp)]
    rfl
  have hinit : text.trimmed (a ++ [space]) = text.trimmed a :=
    trim_append_blank_right (blank_singleton_iff.mpr hspace)
  have hfield : text.trimmed (a ++ [space, last]) = text.trimmed a ++ (after ++ [space] ++ [last]) := by
    have hsplit : a ++ [space, last] =
        before ++ trim text.isSpace a ++ (after ++ [space] ++ [last]) := by
      conv_lhs => rw [ha]
      simp
    rw [QtText.trimmed_eq, hsplit, trim_append_tight (tight_trim _ _) hcore,
      dropWhile_eq_nil_iff.mpr hbefore, List.rdropWhile_concat_neg _ _ _ (by simp [hlast])]
    rfl
  rw [shown, hedit, hinit, hfield, if_neg (by simp)]

/-- A deletion that bares white space leaves the field behind. -/
theorem behind_of_bares {plain field : QString} (h : Synced text plain field)
    (hbares : Bares text plain) :
    Behind text plain.dropLast plain.dropLast (shown text field .deleteLast) := by
  obtain ⟨lead, hlead, rfl⟩ := h
  obtain ⟨front, space, last, hplain, hspace, hlast, hfront⟩ := hbares
  -- what stands before the white space is in the field, at least in part
  obtain ⟨a, rfl, rfl⟩ : ∃ a, front = lead ++ a ∧ field = a ++ [space, last] := by
    rcases List.append_eq_append_iff.mp hplain with ⟨a, hf, hfield⟩ | ⟨c, hl, -⟩
    · exact ⟨a, hf, hfield⟩
    · rw [hl, blank_append_iff] at hlead
      exact absurd hlead.1 hfront
  have hcore : text.trimmed a ≠ [] := by
    intro hnone
    exact hfront (blank_append_iff.mpr ⟨hlead, trim_eq_nil_iff.mp hnone⟩)
  obtain ⟨before, after, ha, hbefore, hafter⟩ := exists_eq_trim text.isSpace a
  have hshown : shown text (a ++ [space, last]) .deleteLast = text.trimmed a :=
    shown_deleteLast_of_space hspace hlast hcore
  have hbase : lead ++ before ++ text.trimmed a ++ (after ++ [space]) =
      (lead ++ (a ++ [space, last])).dropLast := by
    rw [hplain, List.dropLast_append_of_ne_nil (by simp)]
    conv_rhs => rw [ha]
    simp [QtText.trimmed_eq]
  refine ⟨⟨lead ++ before, text.trimmed a, after ++ [space], [], ?_, ?_, hcore, ?_, ?_, ?_⟩, hbase,
    ?_, ?_⟩
  · exact blank_append_iff.mpr ⟨hlead, hbefore⟩
  · exact tight_trim _ _
  · exact blank_append_iff.mpr ⟨hafter, blank_singleton_iff.mpr hspace⟩
  · simp
  · exact blank_nil
  · exact (List.append_nil _).trans hbase
  · exact (List.append_nil _).trans hshown.symm

/-- The plain text is `base` and white space behind it. -/
def Spaced (text : QtText) (base plain : QString) : Prop :=
  ∃ spaces, Blank text.isSpace spaces ∧ plain = base ++ spaces

/-- Keys that only add spaces, or take these away, leave the field behind. -/
theorem Behind.edit {base plain field : QString} (h : Behind text base plain field) {key : Key}
    (hkey : Spaced text base (edit plain key)) :
    Behind text base (Main.edit plain key) (shown text field key) := by
  obtain ⟨e, rfl, rfl, rfl⟩ := h
  obtain ⟨spaces, hspaces, hplain⟩ := hkey
  have hfield : Main.edit e.field key = e.core ++ spaces := by
    cases key with
    | append c =>
        rw [Main.edit, Eaten.plain, List.append_assoc] at hplain
        rw [Main.edit, Eaten.field, List.append_assoc, List.append_cancel_left hplain]
    | deleteLast =>
        rw [Main.edit, Eaten.plain] at hplain
        rw [Main.edit, Eaten.field]
        rcases List.eq_nil_or_concat e.spaces with hnone | ⟨init, c, hsome⟩
        · -- the base itself would have got shorter
          have hlength := congrArg List.length hplain
          have hpos := List.length_pos_iff.mpr e.eaten_ne
          rw [hnone, Eaten.base] at hlength
          simp only [List.append_nil, List.length_dropLast, List.length_append] at hlength
          omega
        · rw [hsome, List.concat_eq_append, ← List.append_assoc, List.dropLast_concat] at hplain ⊢
          rw [List.append_cancel_left hplain]
  have hshown : shown text e.field key = e.core ++ spaces := by
    rw [shown, hfield, e.trimmed_field, QtText.trimmed_eq, trim_append_blank_right hspaces,
      trim_of_tight e.tight_core, if_pos rfl]
  exact ⟨{ e with spaces := spaces, blank_spaces := hspaces }, rfl, hplain.symm, hshown.symm⟩

theorem trimmed_shown (text : QtText) (field : QString) (key : Key) :
    text.trimmed (shown text field key) = text.trimmed (edit field key) := by
  unfold shown
  split
  · rfl
  · exact text.trimmed_trimmed _

/-- A character that is not white space stands next to what was eaten in one text only. -/
theorem Eaten.trimmed_append_ne (e : Eaten text) {c : QChar} (hc : text.isSpace c = false) :
    text.trimmed (e.plain ++ [c]) ≠ text.trimmed (e.field ++ [c]) := by
  have hplain : e.plain ++ [c] = e.lead ++ e.core ++ (e.eaten ++ e.spaces ++ [c]) := by
    simp only [plain, base, List.append_assoc]
  have hfield : e.field ++ [c] = [] ++ e.core ++ (e.spaces ++ [c]) := by
    simp only [field, List.append_assoc, List.nil_append]
  have hpos := List.length_pos_iff.mpr e.eaten_ne
  intro heq
  rw [QtText.trimmed_eq, QtText.trimmed_eq, hplain, hfield, trim_append_tight e.tight_core e.core_ne,
    trim_append_tight e.tight_core e.core_ne, dropWhile_eq_nil_iff.mpr e.blank_lead,
    List.rdropWhile_concat_neg _ _ _ (by simp [hc]),
    List.rdropWhile_concat_neg _ _ _ (by simp [hc])] at heq
  have hlength := congrArg List.length heq
  simp only [List.length_append, List.dropWhile_nil, List.length_nil] at hlength
  omega

/-- A deletion takes the last of the eaten white space from one text, and a character from the
    other. -/
theorem Eaten.trimmed_dropLast_ne (e : Eaten text) (h : e.spaces = []) :
    text.trimmed e.plain.dropLast ≠ text.trimmed e.field.dropLast := by
  have hblank : Blank text.isSpace e.eaten.dropLast := fun x hx =>
    e.blank_eaten x (List.dropLast_subset _ hx)
  have hplain : text.trimmed e.plain.dropLast = e.core := by
    rw [plain, h, List.append_nil, base, List.dropLast_append_of_ne_nil e.eaten_ne,
      QtText.trimmed_eq, trim_append_blank e.blank_lead hblank, trim_of_tight e.tight_core]
  have hfield := length_trim_le text.isSpace e.field.dropLast
  rw [field, h, List.append_nil, List.length_dropLast] at hfield
  have hpos := List.length_pos_iff.mpr e.core_ne
  intro heq
  rw [hplain, QtText.trimmed_eq, field, h, List.append_nil] at heq
  rw [← heq] at hfield
  omega

/-- **Any other key shows that the field is behind.** -/
theorem Behind.trimmed_ne {base plain field : QString} (h : Behind text base plain field) {key : Key}
    (hkey : ¬ Spaced text base (Main.edit plain key)) :
    text.trimmed (Main.edit plain key) ≠ text.trimmed (shown text field key) := by
  obtain ⟨e, rfl, rfl, rfl⟩ := h
  rw [trimmed_shown]
  cases key with
  | append c =>
      refine e.trimmed_append_ne ?_
      rw [← Bool.not_eq_true]
      intro hblank
      refine hkey ⟨e.spaces ++ [c], ?_, List.append_assoc ..⟩
      exact blank_append_iff.mpr ⟨e.blank_spaces, blank_singleton_iff.mpr hblank⟩
  | deleteLast =>
      refine e.trimmed_dropLast_ne ?_
      rcases List.eq_nil_or_concat e.spaces with hnone | ⟨init, c, hsome⟩
      · exact hnone
      · have hblank := e.blank_spaces
        rw [hsome, List.concat_eq_append, blank_append_iff] at hblank
        refine absurd ⟨init, hblank.1, ?_⟩ hkey
        rw [Main.edit, Eaten.plain, hsome, List.concat_eq_append, ← List.append_assoc,
          List.dropLast_concat]

/-! ## Whole sequences of keys -/

theorem forall_prefix_cons_iff {P : List Key → Prop} {key : Key} {rest : List Key} :
    (∀ more, more <+: key :: rest → P more) ↔ P [] ∧ ∀ more, more <+: rest → P (key :: more) := by
  constructor
  · intro h
    exact ⟨h [] List.nil_prefix, fun more hmore => h _ (List.cons_prefix_cons.mpr ⟨rfl, hmore⟩)⟩
  · rintro ⟨hnil, hcons⟩ more hmore
    rcases List.prefix_cons_iff.mp hmore with rfl | ⟨more, rfl, hrest⟩
    · exact hnil
    · exact hcons more hrest

/-- Both texts trim alike after each of the keys. -/
def Agree (text : QtText) (plain field : QString) (keys : List Key) : Prop :=
  ∀ more, more <+: keys → text.trimmed (more.foldl edit plain) =
    text.trimmed (fieldText text field more)

/-- After each of the keys the plain text is `base` and white space behind it. -/
def StaysSpaced (text : QtText) (base plain : QString) (keys : List Key) : Prop :=
  ∀ more, more <+: keys → Spaced text base (more.foldl edit plain)

theorem Behind.agree_iff {base plain field : QString} (h : Behind text base plain field)
    (keys : List Key) : Agree text plain field keys ↔ StaysSpaced text base plain keys := by
  induction keys generalizing plain field with
  | nil =>
      have hspaced : Spaced text base plain := by
        obtain ⟨e, rfl, rfl, -⟩ := h
        exact ⟨e.spaces, e.blank_spaces, rfl⟩
      simp only [Agree, StaysSpaced, List.prefix_nil, forall_eq, List.foldl_nil]
      exact iff_of_true h.trimmed_eq hspaced
  | cons key rest ih =>
      have hspaced : Spaced text base plain := by
        obtain ⟨e, rfl, rfl, -⟩ := h
        exact ⟨e.spaces, e.blank_spaces, rfl⟩
      rw [Agree, StaysSpaced, forall_prefix_cons_iff, forall_prefix_cons_iff]
      by_cases hkey : Spaced text base (Main.edit plain key)
      · exact and_congr (iff_of_true h.trimmed_eq hspaced) (ih (h.edit hkey))
      · refine iff_of_false ?_ ?_
        · exact fun hagree => h.trimmed_ne hkey (hagree.2 [] List.nil_prefix)
        · exact fun hstays => hkey (hstays.2 [] List.nil_prefix)

/-- After every deletion that bares white space, the keys only add white space, and take away no more
    than they have added. -/
def OnlySpaces (text : QtText) (plain : QString) (keys : List Key) : Prop :=
  ∀ before later, keys = before ++ .deleteLast :: later → Bares text (before.foldl edit plain) →
    StaysSpaced text (before.foldl edit plain).dropLast (before.foldl edit plain).dropLast later

theorem onlySpaces_cons_iff {plain : QString} {key : Key} {rest : List Key} :
    OnlySpaces text plain (key :: rest) ↔
      (key = .deleteLast → Bares text plain →
        StaysSpaced text plain.dropLast plain.dropLast rest) ∧
      OnlySpaces text (edit plain key) rest := by
  constructor
  · intro h
    refine ⟨?_, ?_⟩
    · rintro rfl
      exact h [] rest rfl
    · intro before later hrest
      exact h (key :: before) later (congrArg (key :: ·) hrest)
  · rintro ⟨hfirst, hrest⟩ before later heq
    cases before with
    | nil =>
        obtain ⟨rfl, rfl⟩ := List.cons.inj heq
        exact hfirst rfl
    | cons k before =>
        obtain ⟨rfl, rfl⟩ := List.cons.inj heq
        exact hrest before later rfl

/-- While only white space is added, no deletion bares any. -/
theorem onlySpaces_of_staysSpaced {base plain : QString} (hbase : ∃ init space,
    base = init ++ [space] ∧ text.isSpace space = true) {keys : List Key}
    (h : StaysSpaced text base plain keys) : OnlySpaces text plain keys := by
  rintro before later rfl ⟨front, space, last, hplain, -, hlast, -⟩
  exfalso
  obtain ⟨spaces, hspaces, heq⟩ := h before (List.prefix_append ..)
  obtain ⟨init, space', rfl, hspace'⟩ := hbase
  rw [heq] at hplain
  -- the last character would be both
  have hgetLast : (init ++ [space'] ++ spaces).getLast? = some last := by
    rw [hplain]
    simp
  have hblank : text.isSpace last = true := by
    rcases List.eq_nil_or_concat spaces with rfl | ⟨spaces, c, rfl⟩
    · rw [List.append_nil, List.getLast?_concat] at hgetLast
      exact Option.some.inj hgetLast ▸ hspace'
    · rw [List.concat_eq_append, ← List.append_assoc, List.getLast?_concat] at hgetLast
      exact Option.some.inj hgetLast ▸ hspaces c (by simp)
  rw [hblank] at hlast
  cases hlast

theorem Bares.dropLast {plain : QString} (h : Bares text plain) :
    ∃ init space, plain.dropLast = init ++ [space] ∧ text.isSpace space = true := by
  obtain ⟨front, space, last, rfl, hspace, -, -⟩ := h
  refine ⟨front, space, ?_, hspace⟩
  rw [List.dropLast_append_of_ne_nil (by simp)]
  rfl

theorem Synced.agree_iff {plain field : QString} (h : Synced text plain field) (keys : List Key) :
    Agree text plain field keys ↔ OnlySpaces text plain keys := by
  induction keys generalizing plain field with
  | nil =>
      refine iff_of_true ?_ ?_
      · intro more hmore
        rw [List.prefix_nil.mp hmore]
        exact h.trimmed_eq
      · intro before later heq
        simp at heq
  | cons key rest ih =>
      rw [Agree, forall_prefix_cons_iff, onlySpaces_cons_iff]
      by_cases hkey : key = .deleteLast ∧ Bares text plain
      · obtain ⟨rfl, hbares⟩ := hkey
        have hbehind := behind_of_bares h hbares
        constructor
        · rintro ⟨-, hagree⟩
          have hstays := (hbehind.agree_iff rest).mp hagree
          exact ⟨fun _ _ => hstays, onlySpaces_of_staysSpaced hbares.dropLast hstays⟩
        · rintro ⟨hstays, -⟩
          exact ⟨h.trimmed_eq, (hbehind.agree_iff rest).mpr (hstays rfl hbares)⟩
      · have hnext : Synced text (edit plain key) (shown text field key) := by
          cases key with
          | append c => exact synced_append h c
          | deleteLast => exact synced_deleteLast h fun hbares => hkey ⟨rfl, hbares⟩
        constructor
        · rintro ⟨-, hagree⟩
          exact ⟨fun hdelete hbares => absurd ⟨hdelete, hbares⟩ hkey, (ih hnext).mp hagree⟩
        · rintro ⟨-, hrest⟩
          exact ⟨h.trimmed_eq, (ih hnext).mpr hrest⟩

/-! ## What was typed -/

/-- **The field keeps what is typed**: after each key the query is the trimmed text that the same keys
    give in a plain field. -/
def KeepsTyped (text : QtText) (depth : ℕ) (channelModel : ChannelListModel) (keys : List Key) :
    Prop :=
  ∀ more, more <+: keys → ∃ panel, typed text depth (channelModel.search []) more = some panel ∧
    panel.1.searchQuery = text.trimmed (plainText more)

/-- **The search field keeps what is typed** exactly when, after each deletion that bares white space,
    white space is all that is added and no more is taken away than was added. -/
theorem keepsTyped_iff (text : QtText) (depth : ℕ) (channelModel : ChannelListModel)
    (keys : List Key) :
    KeepsTyped text (depth + 2) channelModel keys ↔ OnlySpaces text [] keys := by
  have hsynced : Synced text [] [] := ⟨[], blank_nil, rfl⟩
  rw [← hsynced.agree_iff keys]
  refine forall_congr' fun more => imp_congr_right fun _ => ?_
  obtain ⟨m', htyped, hquery⟩ := typed_eq text depth channelModel more
  rw [htyped]
  constructor
  · rintro ⟨panel, hpanel, hkept⟩
    rw [← Option.some.inj hpanel, hquery] at hkept
    exact hkept.symm
  · intro hagree
    exact ⟨_, rfl, hquery.trans hagree.symm⟩

/-- The keys `a`, space, `b`, a deletion, `c`. -/
def correction : List Key :=
  [.append 0x61, .append 0x20, .append 0x62, .deleteLast, .append 0x63]

/-- After a correction the query is `ac` where `a c` was typed. -/
theorem correction_eats_space :
    (typed .ascii 2 (({} : ChannelListModel).search []) correction).map (·.1.searchQuery) =
      some (qStringLiteral "ac") ∧
    QtText.ascii.trimmed (plainText correction) = qStringLiteral "a c" ∧
    ¬ KeepsTyped .ascii 2 {} correction := by
  have hquery : (typed .ascii 2 (({} : ChannelListModel).search []) correction).map
      (·.1.searchQuery) = some (qStringLiteral "ac") := by decide +kernel
  have hplain : QtText.ascii.trimmed (plainText correction) = qStringLiteral "a c" := by
    decide +kernel
  refine ⟨hquery, hplain, ?_⟩
  intro hkeeps
  obtain ⟨panel, hpanel, hkept⟩ := hkeeps correction List.prefix_rfl
  rw [hpanel, Option.map_some, hkept, hplain] at hquery
  exact absurd hquery (by decide +kernel)

end BranchTalk.Desktop.Main
