import FragmentLisp.LoadedType

/-!
Packing the code of a type loses nothing: a range of the image is filled once, code that is packed later
stands behind it, and so each method's range holds the code of that method.
-/

namespace FragmentLisp
namespace LoadedType

theorem pack_extends (image : Array UInt8) (methods : List Method) :
    ∃ further, pack image methods = image ++ further := by
  induction methods generalizing image with
  | nil => exact ⟨#[], by simp [pack]⟩
  | cons method rest inductionHypothesis =>
      obtain ⟨further, packed⟩ := inductionHypothesis (image ++ method.code)
      refine ⟨method.code ++ further, ?_⟩
      rw [← Array.append_assoc, ← packed]
      rfl

/-- What was packed first is still in its place when further code has been packed. -/
theorem extract_pack (image code : Array UInt8) (rest : List Method) :
    (pack (image ++ code) rest).extract image.size (image.size + code.size) = code := by
  obtain ⟨further, packed⟩ := pack_extends (image ++ code) rest
  rw [packed, Array.append_assoc, Array.extract_append_right, Array.extract_append_left,
    Array.extract_size]

theorem layOut_unpacks (image : Array UInt8) (methods : List Method) :
    (layOut image.size methods).map
        (fun method =>
          { signature := method.signature
            code := (pack image methods).extract method.start method.stop : Method }) =
      methods := by
  induction methods generalizing image with
  | nil => rfl
  | cons method rest inductionHypothesis =>
      have later := inductionHypothesis (image ++ method.code)
      rw [Array.size_append] at later
      have own := extract_pack image method.code rest
      rw [layOut, List.map_cons]
      exact congr (congrArg (List.cons ∘ Method.mk method.signature) own) later

@[simp] theorem unpacked_ofDefinition (definition : TypeDefinition) :
    (ofDefinition definition).unpacked = definition := by
  have methods := layOut_unpacks #[] definition.methods
  exact congrArg
    (TypeDefinition.mk definition.name definition.fieldCount definition.constants) methods

theorem method?_unpacked (loaded : LoadedType) (name : String) :
    (loaded.method? name).map loaded.unpackedMethod = loaded.unpacked.method? name := by
  rw [TypeDefinition.method?, unpacked, List.find?_map]
  rfl

end LoadedType
end FragmentLisp
