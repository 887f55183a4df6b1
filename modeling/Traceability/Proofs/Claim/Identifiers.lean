import Traceability.Proofs.Claim.Standard
import Traceability.Proofs.Config.Compile
import Traceability.Proofs.Scheme.Reading

/-! Identifiers of the requirements that are read from a file.
A heading has an identifier that fits the pattern. It is read back, alone and with letters behind
it, unless its digits write no number: those of other scripts do not, and the number must not be
too large.
-/

namespace Traceability

/-- The identifiers of the requirements among blocks. -/
def Block.requirementIds (blocks : List Block) : List String :=
  blocks.filterMap (fun block =>
    match block.content with
    | .requirement requirement => some requirement.id
    | _ => none)

namespace Claim

variable {context : ClaimContext} {lines : List Line} {id : String}

theorem exists_heading_of_mem_requirementIds
    (claimed : id ∈ Block.requirementIds (requirement.claim context lines))
    : ∃ text heading,
        Heading.requirement? context.scheme text = some heading ∧ heading.id = id := by
  obtain ⟨block, member, own⟩ := List.mem_filterMap.mp claimed
  obtain ⟨line, rest, count, content, -, opened, rfl⟩ := Block.mem_sweep member
  obtain ⟨heading, inner, last, headed, -, -, rfl⟩ := Requirement.of_opens? opened
  exact ⟨line.text, heading, headed, Option.some.inj own⟩

/-- A requirement that is read from a file has an identifier with the code of a level and with
digits as many as are configured. It is read back, alone and with any capital letters behind it,
exactly if all its digits are ASCII and write a number that is not too large. -/
theorem parseId?_of_mem_requirementIds {config : Config} {limit : Nat} {scheme : Scheme}
    (compiled : config.compileWithin limit = .ok scheme) {path : String}
    (claimed : id ∈ Block.requirementIds (requirement.claim ⟨path, scheme⟩ lines))
    : ∃ code digits level,
        id.toList = scheme.idText code digits
        ∧ scheme.Admits digits
        ∧ scheme.levelByCode? code = some level
        ∧ ∀ letters : List Char, (∀ letter ∈ letters, letter.isUpper = true) →
            scheme.parseId? (id ++ Identifier.suffix letters)
              = if digits.all Char.isDigit
                  ∧ Nat.ofDigitChars 10 digits 0 ≤ Identifier.maxNumber then
                  some ⟨code, Nat.ofDigitChars 10 digits 0, letters⟩
                else none := by
  obtain ⟨text, heading, headed, rfl⟩ := exists_heading_of_mem_requirementIds claimed
  obtain ⟨s, own, rest, taken, same⟩ := Heading.ofParts?_spec headed
  obtain ⟨code, digits, rfl, listed, admits⟩ :=
    Scheme.admits_of_takeId? (Config.idDigits_of_compile compiled) taken
  obtain ⟨level, found, -⟩ := Scheme.levelByCode?_of_mem listed
  have written : heading.id.toList = scheme.idText code digits := by
    rw [same, String.toList_ofList]
  exact ⟨code, digits, level, written, admits, found,
    fun _ upper => Scheme.parseId?_append_suffix written listed admits upper⟩

/-- A requirement with an ordinary identifier. -/
def loginText : String :=
  "# REQ-p00001: Login\nA. Ask.\nB. Tell.\n*End* *Login*\n"

theorem parseId?_of_mem_requirementIds_loginText
    : ({} : Config).compile = .ok Config.defaultScheme
      ∧ Block.requirementIds
          (requirement.claim ⟨"spec.md", Config.defaultScheme⟩ (Line.ofText loginText))
        = ["REQ-p00001"]
      ∧ Config.defaultScheme.parseId? "REQ-p00001-A-B" = some ⟨'p', 1, ['A', 'B']⟩ := by
  have read
      : Block.requirementIds
          (requirement.claim ⟨"spec.md", Config.defaultScheme⟩ (Line.ofText loginText))
        = ["REQ-p00001"] := by
    decide +kernel
  obtain ⟨code, digits, level, written, -, -, parsed⟩ :=
    parseId?_of_mem_requirementIds Config.compile_default (read ▸ List.mem_singleton_self _)
  obtain ⟨rfl, rfl⟩ : 'p' = code ∧ ['0', '0', '0', '0', '1'] = digits := by
    simpa [Scheme.idText, Config.defaultScheme] using written
  have upper : ∀ letter ∈ ['A', 'B'], letter.isUpper = true := by simp
  have reference : "REQ-p00001" ++ Identifier.suffix ['A', 'B'] = "REQ-p00001-A-B" := by
    decide +kernel
  refine ⟨Config.compile_default, read, ?_⟩
  rw [← reference, parsed ['A', 'B'] upper]
  rfl

/-- A requirement whose identifier has digits of another script. -/
def arabicDigitsText : String :=
  "# REQ-p٠٠٠٠١: Login\nA. Ask.\nB. Tell.\n*End* *Login*\n"

/-- A requirement with the first number that is too large, for identifiers without padding. -/
def largeNumberText : String :=
  "# REQ-p18446744073709551616: Login\nA. Ask.\nB. Tell.\n*End* *Login*\n"

/-- What the defaults without padding compile to. -/
def unpaddedScheme : Scheme :=
  { Config.defaultScheme with zeroPadded := false }

/-- Not every requirement that is read from a file has an identifier that is read back. -/
theorem parseId?_arabicDigitsText_largeNumberText
    : ({} : Config).compile = .ok Config.defaultScheme
      ∧ ({ zeroPadded := false } : Config).compile = .ok unpaddedScheme
      ∧ ∀ input ∈ [(Config.defaultScheme, arabicDigitsText, "REQ-p٠٠٠٠١"),
            (unpaddedScheme, largeNumberText, "REQ-p18446744073709551616")],
          Block.requirementIds (requirement.claim ⟨"spec.md", input.1⟩ (Line.ofText input.2.1))
              = [input.2.2]
            ∧ input.1.parseId? input.2.2 = none
            ∧ input.1.parseId? (input.2.2 ++ Identifier.suffix ['A', 'B']) = none := by
  refine ⟨Config.compile_default, rfl, ?_⟩
  decide +kernel

end Claim

end Traceability
