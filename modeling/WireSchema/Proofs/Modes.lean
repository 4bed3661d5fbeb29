import WireSchema.Proofs.Sizes

/-!
# The modes of a size

**The default size is the size of the default.** Of any type among any siblings, a default that is
had is measured, in default mode, as the type is without a value (`Schema.sizeOf_defaultValue`); it
is `Size.foresees_default`, with the bounds on the nesting of structs that the one and the other are
measured with.

**The modes are ordered.** Of any value whatever, the size in default mode lies between those in
`min` and in `max` mode (`Schema.encodedBits_ordered`). A value is a part of itself, so the two
bound its default size as they bound any other (`Size.bounds_ofStruct`).
-/

namespace WireSchema

namespace Schema

variable {schema : Schema}

/-! ### The default size -/

/-- **The default size is the size of the default.** A type that has a default has a finite default
size, and it is the size of that default. -/
theorem sizeOf_defaultValue {t : FieldType} {siblings : Fields} {d : Value}
    (hschema : schema.inconsistencies = []) (hd : schema.defaultValue t siblings = .ok d) :
    ∃ bits, schema.sizeOf t .default .null siblings = .ok (.finite bits) ∧
      schema.sizeOf t .default d siblings = .ok (.finite bits) := by
  obtain ⟨bits, hbits⟩ := Size.foresees_default (Consistent.of_inconsistencies hschema) hd
  have hdepth : ∀ v, schema.structs.length ≤ Size.depthBound schema v := fun v => by
    rw [Size.depthBound]
    omega
  have same : Siblings.SameFor schema siblings siblings t := .refl siblings t
  exact ⟨bits, (hbits _ siblings (hdepth .null) same).1, (hbits _ siblings (hdepth d) same).2⟩

/-- Bodies of nodes, as many as the length says, each of a kind that is not known. -/
def chainBodies : FieldType :=
  .array (.union "kind" "Kind" [("leaf", .text .utf8 (some "end")), ("node", .struct "Node")])
    (.dynamic "length")

/-- Two bodies, which are texts by default. -/
theorem chainBodies_sizeOf_defaultValue :
    chain.inconsistencies = [] ∧
      chain.defaultValue chainBodies [("length", .int 2)] = .ok (.list [.text "end", .text "end"]) ∧
      ∃ bits, chain.sizeOf chainBodies .default .null [("length", .int 2)] = .ok (.finite bits) ∧
        chain.sizeOf chainBodies .default (.list [.text "end", .text "end"])
          [("length", .int 2)] = .ok (.finite bits) := by
  have hd : chain.defaultValue chainBodies [("length", .int 2)] =
      .ok (.list [.text "end", .text "end"]) := rfl
  exact ⟨chain_inconsistencies, hd, sizeOf_defaultValue chain_inconsistencies hd⟩

/-! ### Ordered modes -/

/-- The size in another mode bounds the default size. -/
theorem bounds_default {mode : Size.Mode} (hmode : mode ≠ .default) (hc : schema.Consistent)
    {root : Text} {v : Value} {a b : Extent} (ha : schema.encodedBits root mode v = .ok a)
    (hb : schema.encodedBits root .default v = .ok b) : mode.Bounds a.bits b.bits :=
  Size.bounds_ofStruct hmode (.inr ⟨rfl, hc⟩) (.refl v) ha hb

/-- **The modes are ordered.** Where all three sizes of a value are had, be it complete or not, of
the right shape or not, the default size is no less than the least and no greater than the greatest.
-/
theorem encodedBits_ordered {root : Text} {v : Value} {least size greatest : Extent}
    (hschema : schema.inconsistencies = [])
    (hmin : schema.encodedBits root .min v = .ok least)
    (hdefault : schema.encodedBits root .default v = .ok size)
    (hmax : schema.encodedBits root .max v = .ok greatest) : least ≤ size ∧ size ≤ greatest := by
  have hc := Consistent.of_inconsistencies hschema
  have hlower : Size.Mode.min ≠ .default := nofun
  have hupper : Size.Mode.max ≠ .default := nofun
  exact ⟨bounds_default hlower hc hmin hdefault, bounds_default hupper hc hmax hdefault⟩

/-- A node with one sample missing, of a kind that is none. -/
def chainScrap : Value := .map [("length", .int 1), ("kind", .int 7)]

/-- What is not known of the node may be nothing more than its default, and may be without bound. -/
theorem chainScrap_encodedBits_ordered :
    chain.inconsistencies = [] ∧ chain.encodedBits "Node" .min chainScrap = .ok (.finite 23) ∧
      chain.encodedBits "Node" .default chainScrap = .ok (.finite 23) ∧
      chain.encodedBits "Node" .max chainScrap = .ok .infinite ∧
      Extent.finite 23 ≤ .finite 23 ∧ Extent.finite 23 ≤ .infinite := by
  have hmin : chain.encodedBits "Node" .min chainScrap = .ok (.finite 23) :=
    Outcome.eq_ok_of_toOption (by decide +kernel)
  have hdefault : chain.encodedBits "Node" .default chainScrap = .ok (.finite 23) :=
    Outcome.eq_ok_of_toOption (by decide +kernel)
  have hmax : chain.encodedBits "Node" .max chainScrap = .ok .infinite :=
    Outcome.eq_ok_of_toOption (by decide +kernel)
  exact ⟨chain_inconsistencies, hmin, hdefault, hmax,
    encodedBits_ordered chain_inconsistencies hmin hdefault hmax⟩

end Schema

end WireSchema
