import BranchTalk.Core.ApplicationConfig.Outcomes
import BranchTalk.Core.Logging.Lines

set_option autoImplicit false

/-! # What the messages contain

A message is a text of the program, and behind it at most one text from outside: a file path, what the
JSON library says, or the name of a field. -/

namespace BranchTalk.Core.ApplicationConfig

open Json (Value)
open Logging (Plain plain_nil)

/-- The name that is rejected. -/
def unsupportedField (document : Value) : Bytes :=
  match (items document).find? fun item => !kSupportedFields.contains item.1 with
  | some item => item.1
  | none => []

/-- What is copied into the message when a file is not loaded. -/
def outsideText (reader : JsonReader) (filePath : Bytes) : Opened → Bytes
  | .failed _ => filePath
  | .content bytes =>
      match reader bytes with
      | .error (.parseError what) => what
      | .error _ => []
      | .ok document => unsupportedField document
  | .unreadable _ => []

/-- Where the function fails, its message is a text of the program and behind it this text. -/
def FailsBefore {α : Type} (text : Bytes) (x : Loading α) : Prop :=
  ∀ e, x.run = .ok (.error e) → ∃ own, Plain own ∧ e.message = own ++ text

/-! ## Composition -/

theorem failsBefore_pure {α : Type} (text : Bytes) (a : α) :
    FailsBefore text (pure a : Loading α) := by
  intro e h
  cases h

theorem failsBefore_throw {α : Type} {own : Bytes} (h : Plain own) (code : ErrorCode) (text : Bytes) :
    FailsBefore text (throw ⟨code, own ++ text⟩ : Loading α) := by
  rintro e ⟨⟩
  exact ⟨own, h, rfl⟩

/-- A message of the program alone. -/
theorem failsBefore_own {α : Type} {own : Bytes} (h : Plain own) :
    FailsBefore [] (invalidConfig own : Loading α) := by
  rintro e ⟨⟩
  exact ⟨own, h, (List.append_nil _).symm⟩

theorem failsBefore_bind {α β : Type} {text : Bytes} {x : Loading α} {f : α → Loading β}
    (hx : FailsBefore text x) (hf : ∀ a, FailsBefore text (f a)) : FailsBefore text (x >>= f) := by
  intro e h
  rcases run_bind_eq_iff.mp h with ⟨e', hrun, he⟩ | ⟨a, -, hrun⟩
  · cases he
    exact hx e hrun
  · exact hf a e hrun

/-! ## The checks -/

theorem withText_failsBefore {field : Bytes} (h : Plain field)
    (store : ApplicationConfig → Bytes → ApplicationConfig) (document : Value)
    (config : ApplicationConfig) : FailsBefore [] (withText field store document config) := by
  have hempty : Plain (ascii " must not be empty") := by decide +kernel
  have hstring : Plain (ascii " must be a string") := by decide +kernel
  rw [withText_eq]
  split
  · exact failsBefore_pure _ _
  · split
    · exact failsBefore_pure _ _
    · exact failsBefore_own (h.append hempty)
  · exact failsBefore_own (h.append hstring)

theorem withLogLevel_failsBefore (document : Value) (config : ApplicationConfig) :
    FailsBefore [] (withLogLevel document config) := by
  rw [withLogLevel_eq]
  split
  · exact failsBefore_pure _ _
  · split
    · exact failsBefore_pure _ _
    · exact failsBefore_own (by decide +kernel)
  · exact failsBefore_own (by decide +kernel)

theorem parse_failsBefore (document : Value) :
    FailsBefore (unsupportedField document) (parseApplicationConfig document) := by
  cases hobject : isObject document with
  | false =>
      have hnone : unsupportedField document = [] := by
        cases document with
        | object members => simp [isObject] at hobject
        | _ => rfl
      rw [parse_not_object hobject, hnone]
      exact failsBefore_own (by decide +kernel)
  | true =>
      obtain ⟨members, rfl⟩ := exists_members hobject
      rw [parse_object, unsupportedField, items]
      cases members.find? fun item => !kSupportedFields.contains item.1 with
      | some item =>
          have hown : Plain (ascii "unsupported configuration field: ") := by decide +kernel
          exact failsBefore_throw hown .invalidArgument item.1
      | none =>
          have haddress : Plain (ascii "server_address") := by decide +kernel
          have hpath : Plain (ascii "data_path") := by decide +kernel
          refine failsBefore_bind (withText_failsBefore haddress _ _ _) fun config => ?_
          refine failsBefore_bind (withLogLevel_failsBefore _ config) fun config => ?_
          exact withText_failsBefore hpath _ _ config

/-- **A file that is not loaded** leaves one text of its own in the message at most. -/
theorem load_failsBefore (reader : JsonReader) (filePath : Bytes) (file : Opened) :
    FailsBefore (outsideText reader filePath file) (loadApplicationConfig reader filePath file) := by
  have hnotFound : Plain (ascii "configuration file was not found: ") := by decide +kernel
  have hfailed : Plain (ascii "configuration file could not be opened: ") := by decide +kernel
  have hinvalid : Plain (ascii "configuration JSON is invalid: ") := by decide +kernel
  unfold loadApplicationConfig outsideText
  cases file with
  | failed fileExists =>
      dsimp only
      split
      · exact failsBefore_throw hnotFound .notFound filePath
      · exact failsBefore_throw hfailed .operationFailed filePath
  | unreadable what =>
      intro e h
      cases h
  | content bytes =>
      dsimp only
      cases reader bytes with
      | ok document => exact parse_failsBefore document
      | error exception =>
          cases exception with
          | parseError what => exact failsBefore_throw hinvalid .invalidArgument what
          | _ =>
              intro e h
              cases h

end BranchTalk.Core.ApplicationConfig
