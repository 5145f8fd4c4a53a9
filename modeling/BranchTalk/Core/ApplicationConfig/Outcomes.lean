import BranchTalk.Core.ApplicationConfig
import BranchTalk.Json.Exceeds

set_option autoImplicit false

/-! # How loading a configuration can end

Once there is a document, loading it never throws: every typed access is behind a check of the type.
So an exception can only come from reading the text, and there only one kind is caught. -/

namespace BranchTalk.Core.ApplicationConfig

open Json (Value Overflows)

/-- The function returns, and a failure it returns carries `invalid_argument`. -/
def Returns {α : Type} (x : Loading α) : Prop :=
  ∃ r, x.run = .ok r ∧ ∀ e, r = .error e → e.code = .invalidArgument

/-- The function returns a value. -/
def Succeeds {α : Type} (x : Loading α) : Prop := ∃ a, x.run = .ok (.ok a)

/-! ## Composition -/

theorem returns_pure {α : Type} (a : α) : Returns (pure a) :=
  ⟨.ok a, rfl, fun _ h => by simp at h⟩

theorem returns_invalidConfig {α : Type} (message : Bytes) :
    Returns (invalidConfig message : Loading α) := by
  refine ⟨.error ⟨.invalidArgument, message⟩, rfl, ?_⟩
  rintro e h
  rw [← Except.error.inj h]

/-- What returns lets no exception out. -/
theorem Returns.run_ne {α : Type} {x : Loading α} (h : Returns x) (exception : LoadException) :
    x.run ≠ .error exception := by
  obtain ⟨r, hr, -⟩ := h
  rw [hr]
  exact nofun

/-- How two parts end: the first fails, or the second ends so with what the first returns. -/
theorem run_bind_eq_iff {α β : Type} {x : Loading α} {f : α → Loading β} {r : Result β} :
    (x >>= f).run = .ok r ↔
      (∃ e, x.run = .ok (.error e) ∧ r = .error e) ∨
        ∃ a, x.run = .ok (.ok a) ∧ (f a).run = .ok r := by
  rw [ExceptT.run_bind]
  cases x.run with
  | error exception =>
      refine iff_of_false nofun ?_
      rintro (⟨e, h, -⟩ | ⟨a, h, -⟩) <;> cases h
  | ok first =>
      cases first with
      | error e =>
          constructor
          · intro h
            exact Or.inl ⟨e, rfl, (Except.ok.inj h).symm⟩
          · rintro (⟨e', h, rfl⟩ | ⟨a, h, -⟩)
            · cases h
              rfl
            · cases h
      | ok a =>
          constructor
          · intro h
            exact Or.inr ⟨a, rfl, h⟩
          · rintro (⟨e, h, -⟩ | ⟨a', h, hf⟩)
            · cases h
            · cases h
              exact hf

theorem run_bind_eq_ok_iff {α β : Type} {x : Loading α} {f : α → Loading β} {b : β} :
    (x >>= f).run = .ok (.ok b) ↔ ∃ a, x.run = .ok (.ok a) ∧ (f a).run = .ok (.ok b) := by
  rw [run_bind_eq_iff, or_iff_right]
  rintro ⟨e, -, h⟩
  cases h

theorem returns_bind {α β : Type} {x : Loading α} {f : α → Loading β} (hx : Returns x)
    (hf : ∀ a, x.run = .ok (.ok a) → Returns (f a)) : Returns (x >>= f) := by
  obtain ⟨r, hr, hcode⟩ := hx
  cases r with
  | error e =>
      refine ⟨.error e, run_bind_eq_iff.mpr (Or.inl ⟨e, hr, rfl⟩), fun e' he' => ?_⟩
      exact hcode e' (congrArg Except.error (Except.error.inj he'))
  | ok a =>
      obtain ⟨r, hfr, hcode⟩ := hf a hr
      exact ⟨r, run_bind_eq_iff.mpr (Or.inr ⟨a, hr, hfr⟩), hcode⟩

theorem succeeds_pure {α : Type} (a : α) : Succeeds (pure a : Loading α) := ⟨a, rfl⟩

theorem not_succeeds_invalidConfig {α : Type} (message : Bytes) :
    ¬ Succeeds (invalidConfig message : Loading α) := by
  rintro ⟨a, h⟩
  cases h

/-- When the rest succeeds or not whatever the first part returns. -/
theorem succeeds_bind_iff {α β : Type} {x : Loading α} {f : α → Loading β} {p : Prop}
    (hf : ∀ a, Succeeds (f a) ↔ p) : Succeeds (x >>= f) ↔ Succeeds x ∧ p := by
  constructor
  · rintro ⟨b, h⟩
    obtain ⟨a, hx, hfa⟩ := run_bind_eq_ok_iff.mp h
    exact ⟨⟨a, hx⟩, (hf a).mp ⟨b, hfa⟩⟩
  · rintro ⟨⟨a, hx⟩, hp⟩
    obtain ⟨b, hfa⟩ := (hf a).mpr hp
    exact ⟨b, run_bind_eq_ok_iff.mpr ⟨a, hx, hfa⟩⟩

/-! ## The checks -/

/-- The check of a text field, written without the accesses. -/
theorem withText_eq (field : Bytes) (store : ApplicationConfig → Bytes → ApplicationConfig)
    (document : Value) (config : ApplicationConfig) :
    withText field store document config =
      match find document field with
      | none => pure config
      | some (.string s) =>
          if hasNonWhitespace s then pure (store config s)
          else invalidConfig (field ++ ascii " must not be empty")
      | some _ => invalidConfig (field ++ ascii " must be a string") := by
  unfold withText
  cases find document field with
  | none => rfl
  | some value =>
      cases value with
      | string s =>
          simp only [isString, getString, pure_bind, Bool.not_true]
          cases hasNonWhitespace s <;> rfl
      | _ => rfl

theorem withLogLevel_eq (document : Value) (config : ApplicationConfig) :
    withLogLevel document config =
      match find document (ascii "log_level") with
      | none => pure config
      | some (.string s) =>
          match parseLogLevel s with
          | some level => pure { config with logLevel := level }
          | none => invalidConfig
              (ascii "log_level must be one of: trace, debug, info, warning, error, critical, off")
      | some _ => invalidConfig (ascii "log_level must be a string") := by
  unfold withLogLevel
  cases find document (ascii "log_level") with
  | none => rfl
  | some value =>
      cases value with
      | string s =>
          simp only [isString, getString, pure_bind, Bool.not_true]
          cases parseLogLevel s <;> rfl
      | _ => rfl

/-! ## Exceptions -/

theorem withText_returns (field : Bytes) (store : ApplicationConfig → Bytes → ApplicationConfig)
    (document : Value) (config : ApplicationConfig) :
    Returns (withText field store document config) := by
  rw [withText_eq]
  split
  · exact returns_pure _
  · split
    · exact returns_pure _
    · exact returns_invalidConfig _
  · exact returns_invalidConfig _

theorem withLogLevel_returns (document : Value) (config : ApplicationConfig) :
    Returns (withLogLevel document config) := by
  rw [withLogLevel_eq]
  split
  · exact returns_pure _
  · split
    · exact returns_pure _
    · exact returns_invalidConfig _
  · exact returns_invalidConfig _

/-- The order of the checks. -/
theorem parse_object (members : List Json.Member) :
    parseApplicationConfig (.object members) =
      match members.find? fun item => !kSupportedFields.contains item.1 with
      | some item => invalidConfig (ascii "unsupported configuration field: " ++ item.1)
      | none =>
          withServerAddress (.object members) {} >>= fun config =>
            withLogLevel (.object members) config >>= withDataPath (.object members) := by
  unfold parseApplicationConfig
  simp only [isObject, items, Bool.not_true]
  cases members.find? fun item => !kSupportedFields.contains item.1 <;> rfl

theorem parse_not_object {document : Value} (h : isObject document = false) :
    parseApplicationConfig document =
      invalidConfig (ascii "configuration root must be a JSON object") := by
  unfold parseApplicationConfig
  rw [h]
  rfl

theorem exists_members {document : Value} (h : isObject document = true) :
    ∃ members, document = .object members := by
  cases document with
  | object members => exact ⟨members, rfl⟩
  | _ => simp [isObject] at h

/-- **No document makes the checks throw**, whatever its values, types and nesting. -/
theorem parse_returns (document : Value) : Returns (parseApplicationConfig document) := by
  cases hobject : isObject document with
  | false =>
      rw [parse_not_object hobject]
      exact returns_invalidConfig _
  | true =>
      obtain ⟨members, rfl⟩ := exists_members hobject
      rw [parse_object]
      split
      · exact returns_invalidConfig _
      · refine returns_bind (withText_returns _ _ _ _) fun config _ => ?_
        exact returns_bind (withLogLevel_returns _ config) fun config _ =>
          withText_returns _ _ _ config

theorem load_returns {reader : JsonReader} (hreader : Documented reader) (filePath : Bytes)
    {bytes : Bytes} (h : ¬ Overflows bytes) :
    Returns (loadApplicationConfig reader filePath (.content bytes)) := by
  unfold loadApplicationConfig
  cases hread : Json.read bytes with
  | ok k =>
      obtain ⟨v, rest⟩ := k
      simp only [hreader.value bytes v rest hread]
      exact parse_returns _
  | error e =>
      cases e with
      | syntaxError =>
          obtain ⟨what, hwhat⟩ := hreader.syntaxError bytes hread
          simp only [hwhat]
          exact returns_invalidConfig _
      | tooLarge n => exact absurd ((Json.read_tooLarge_iff bytes).mp ⟨n, hread⟩) h

/-- Only one kind of exception is caught. -/
theorem load_throws {reader : JsonReader} (hreader : Documented reader) (filePath : Bytes)
    {bytes : Bytes} (h : Overflows bytes) :
    ∃ what, (loadApplicationConfig reader filePath (.content bytes)).run =
      .error (.json (.outOfRange what)) := by
  obtain ⟨n, hread⟩ := (Json.read_tooLarge_iff bytes).mpr h
  obtain ⟨what, hwhat⟩ := hreader.tooLarge bytes n hread
  refine ⟨what, ?_⟩
  unfold loadApplicationConfig
  simp only [hwhat]
  rfl

/-- Reading it throws what nothing catches. -/
def Opened.Breaks : Opened → Prop
  | .content bytes => Overflows bytes
  | .unreadable _ => True
  | .failed _ => False

/-- An exception leaves the function at such a file and at no other. -/
theorem load_leaves_iff {reader : JsonReader} (hreader : Documented reader) (filePath : Bytes)
    (file : Opened) :
    (∃ exception, (loadApplicationConfig reader filePath file).run = .error exception) ↔
      file.Breaks := by
  cases file with
  | content bytes =>
      constructor
      · rintro ⟨exception, hthrows⟩
        by_contra hbreaks
        exact (load_returns hreader filePath hbreaks).run_ne exception hthrows
      · intro hbreaks
        obtain ⟨what, hwhat⟩ := load_throws hreader filePath hbreaks
        exact ⟨_, hwhat⟩
  | unreadable what => exact iff_of_true ⟨.iosFailure what, rfl⟩ trivial
  | failed fileExists =>
      refine iff_of_false ?_ id
      rintro ⟨exception, hthrows⟩
      dsimp only [loadApplicationConfig] at hthrows
      split at hthrows <;> cases hthrows

/-- **Loading returns** exactly when the file does not come to a number that is too large. -/
theorem load_returns_iff {reader : JsonReader} (hreader : Documented reader)
    (filePath bytes : Bytes) :
    Returns (loadApplicationConfig reader filePath (.content bytes)) ↔
      ¬ Overflows bytes := by
  refine ⟨fun hreturns hoverflows => ?_, load_returns hreader filePath⟩
  obtain ⟨what, hwhat⟩ := load_throws hreader filePath hoverflows
  exact hreturns.run_ne _ hwhat

theorem load_returns_level :
    Returns (loadApplicationConfig plainReader (ascii "app.json")
      (.content (ascii "\x7b\"log_level\": \"off\"\x7d"))) :=
  (load_returns_iff documented_plainReader _ _).mpr (by decide +kernel)

/-- A number that no double can hold lets an exception out. -/
theorem load_throws_number :
    Documented plainReader ∧
    ¬ Returns (loadApplicationConfig plainReader (ascii "app.json")
      (.content (ascii "\x7b\"log_level\": 1e999\x7d"))) := by
  refine ⟨documented_plainReader, fun hreturns => ?_⟩
  have hoverflows : Overflows (ascii "\x7b\"log_level\": 1e999\x7d") := by decide +kernel
  obtain ⟨what, hwhat⟩ := load_throws documented_plainReader (ascii "app.json") hoverflows
  exact hreturns.run_ne _ hwhat

end BranchTalk.Core.ApplicationConfig
