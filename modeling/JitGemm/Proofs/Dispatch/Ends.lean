import JitGemm.Dispatch.Dispatcher

/-!
# Ends of calls

Every call ends at its checks, in the run of one built-in route or with a vendor library. What a
route needs to have shown about it is shown about its run.
-/

namespace JitGemm.Dispatcher

variable {α A B γ : Type}

theorem finish_ok {d : Dispatcher α} {q : Request α A B} {c c' : Array γ} {run : Run γ Unit}
    (h : run.run c = .ok () c') (route : Decision) :
    d.finish q c route run = ⟨.routed route, c', q, d⟩ := by
  simp [finish, h]

theorem guarded_ok {d : Dispatcher α} {check : Except GemmError Unit} {q : Request α A B}
    (hcheck : check = .ok ()) (hwork : q.shape.degenerate = false) (c : Array γ)
    (route : Unit → Answer α A B γ) : d.guarded check q c route = route () := by
  simp [guarded, hcheck, hwork]

variable (ar : Arith α)

/-- A real call is finished by the reference kernel or by the tiles of a generated kernel. -/
theorem runFloat_cases (d : Dispatcher α) (isa : Isa) (q : Request α A B) (a b : Operand α)
    (c : Array α) :
    ∃ (d' : Dispatcher α) (route : Decision),
      d.runFloat ar isa q a b c = d'.finish q c route (Reference.float ar d'.team q a b) ∨
        ∃ (fused : Bool) (key : TileKey),
          d.runFloat ar isa q a b c =
            d'.finish q c route (Blocked.float ar d'.team fused key.rows q a b) := by
  simp only [runFloat]
  split
  · exact ⟨_, _, .inr ⟨_, _, rfl⟩⟩
  · exact ⟨_, _, .inl rfl⟩

theorem builtinIgemm_cases (d : Dispatcher α) (kind : IntKind B) (q : Request α Int8 B)
    (c : Array Int32) :
    ∃ (d' : Dispatcher α) (route : Decision),
      d.builtinIgemm ar kind q c =
          d'.finish q c route (Reference.int ar d'.team q q.intA (q.intB kind)) ∨
        ∃ (key : TileKey) (shift : Int32),
          d.builtinIgemm ar kind q c =
            d'.finish q c route
              (Blocked.int ar d'.team key.rows shift q q.intA (q.intB kind)) := by
  simp only [builtinIgemm]
  split
  · split
    · exact ⟨_, _, .inr ⟨_, _, rfl⟩⟩
    · exact ⟨_, _, .inl rfl⟩
  · split
    · exact ⟨_, _, .inr ⟨_, _, rfl⟩⟩
    · exact ⟨_, _, .inl rfl⟩
  · exact ⟨_, _, .inl rfl⟩

end JitGemm.Dispatcher
