import StubInference.Bytecode.Pool
import StubInference.Proofs.Value.Confined

/-!
# Nested code

The code objects that stand in the constants of another one, in tuples or in code of their own.

## Main definitions

* `ConstValue.codes`, `Code.inner`, `Code.nested` — the code objects within a constant, and within a
  code object, itself apart or not

## Main results

* `Code.nested_subset`, `Code.inner_subset` — code within nested code is nested code
* `Code.confined_inner`, `Code.confined_nested` — a constant holds inner code only, and one of nested
  code nested code
-/

namespace StubInference

namespace ConstValue

mutual
/-- The code objects within a constant. -/
def codes : ConstValue → List Code
  | .tuple items => codesOf items
  | .code ⟨name, qualName, fileName, firstLine, version, argCount, posOnly, kwOnly, varArgs,
      varKeywords, varNames, consts, blocks⟩ =>
    ⟨name, qualName, fileName, firstLine, version, argCount, posOnly, kwOnly, varArgs, varKeywords,
      varNames, consts, blocks⟩ :: codesOf consts
  | _ => []

/-- The code objects within several constants. -/
def codesOf : List ConstValue → List Code
  | [] => []
  | value :: rest => codes value ++ codesOf rest
end

theorem mem_codesOf {consts : List ConstValue} {code : Code} :
    code ∈ codesOf consts ↔ ∃ value ∈ consts, code ∈ value.codes := by
  induction consts with
  | nil => simp [codesOf]
  | cons value rest ih => simp [codesOf, ih]

theorem codes_code (body : Code) : (ConstValue.code body).codes = body :: codesOf body.consts := by
  obtain ⟨⟩ := body
  rfl

end ConstValue

/-- The code objects within another one, itself apart: those of the functions and classes that it
defines. -/
def Code.inner (code : Code) : List Code := ConstValue.codesOf code.consts

/-- A code object and all code objects within it. -/
def Code.nested (code : Code) : List Code := code :: ConstValue.codesOf code.consts

mutual
private theorem codesOf_consts_subset {body : Code} :
    ∀ value : ConstValue, body ∈ value.codes →
      ∀ c ∈ ConstValue.codesOf body.consts, c ∈ value.codes
  | .tuple items, h, c, hc => by
    simp only [ConstValue.codes] at h ⊢
    exact codesOf_consts_subset_all items h c hc
  | .code ⟨_, _, _, _, _, _, _, _, _, _, _, consts, _⟩, h, c, hc => by
    simp only [ConstValue.codes, List.mem_cons] at h ⊢
    rcases h with rfl | h
    · exact .inr hc
    · exact .inr (codesOf_consts_subset_all consts h c hc)
  | .none, h, _, _ | .bool _, h, _, _ | .int _, h, _, _ | .float _, h, _, _ | .str _, h, _, _
  | .bytes _, h, _, _ | .ellipsis, h, _, _ => by simp [ConstValue.codes] at h

private theorem codesOf_consts_subset_all {body : Code} :
    ∀ values : List ConstValue, body ∈ ConstValue.codesOf values →
      ∀ c ∈ ConstValue.codesOf body.consts, c ∈ ConstValue.codesOf values
  | [], h, _, _ => by simp [ConstValue.codesOf] at h
  | value :: rest, h, c, hc => by
    simp only [ConstValue.codesOf, List.mem_append] at h ⊢
    exact h.imp (codesOf_consts_subset value · c hc) (codesOf_consts_subset_all rest · c hc)
end

/-- Code within nested code is nested. -/
theorem Code.nested_subset {code body : Code} (h : body ∈ code.nested) : body.nested ⊆ code.nested := by
  intro c hc
  rcases List.mem_cons.mp hc with rfl | hc
  · exact h
  · rcases List.mem_cons.mp h with rfl | h
    · exact List.mem_cons_of_mem _ hc
    · exact List.mem_cons_of_mem _ (codesOf_consts_subset_all _ h c hc)

/-- Code within inner code is inner code. -/
theorem Code.inner_subset {code body : Code} (h : body ∈ code.inner) : body.nested ⊆ code.inner := by
  intro c hc
  rcases List.mem_cons.mp hc with rfl | hc
  · exact h
  · exact codesOf_consts_subset_all _ h c hc

mutual
/-- The literal that a constant is holds the code objects of the constant. -/
theorem Literal.confined_ofConst {P : CodeSite → Code → Prop} (site : CodeSite) :
    ∀ value : ConstValue, (∀ body ∈ value.codes, ∀ site, P site body) →
      (Literal.ofConst site value).Confined P
  | .tuple items, h => by
    simp only [ConstValue.codes] at h
    refine .intro (by simp [Literal.ofConst]) fun items' heq => ?_
    obtain rfl : Literal.ofConsts site 0 items = items' := by simpa [Literal.ofConst] using heq
    exact Literal.confined_ofConsts site 0 items h
  | .code body, h => by
    rw [ConstValue.codes_code] at h
    refine .intro (fun site' body' heq => ?_) (by simp [Literal.ofConst])
    obtain ⟨rfl, rfl⟩ : site = site' ∧ body = body' := by simpa [Literal.ofConst] using heq
    exact h body (List.mem_cons_self ..) site
  | .none, _ | .bool _, _ | .int _, _ | .float _, _ | .str _, _ | .bytes _, _ | .ellipsis, _ =>
    .of_plain (by simp [Literal.ofConst]) (by simp [Literal.ofConst])

theorem Literal.confined_ofConsts {P : CodeSite → Code → Prop} (site : CodeSite) (index : Nat) :
    ∀ values : List ConstValue, (∀ body ∈ ConstValue.codesOf values, ∀ site, P site body) →
      ∀ l ∈ Literal.ofConsts site index values, l.Confined P
  | [], _ => by simp [Literal.ofConsts]
  | value :: rest, h => by
    simp only [ConstValue.codesOf, List.forall_mem_append] at h
    simp only [Literal.ofConsts, List.forall_mem_cons]
    exact ⟨Literal.confined_ofConst _ value h.1, Literal.confined_ofConsts site (index + 1) rest h.2⟩
end

/-- Constants of a code object hold inner code of it only. -/
theorem Code.confined_inner {P : CodeSite → Code → Prop} {code : Code} {site : CodeSite}
    {index : Nat} {literal : Literal} (h : ∀ body ∈ code.inner, ∀ site, P site body)
    (hl : code.literalAt site index = .ok literal) : literal.Confined P := by
  unfold Code.literalAt at hl
  split at hl
  case h_1 value hvalue =>
    cases hl
    refine Literal.confined_ofConst _ value fun body hbody => h body ?_
    exact ConstValue.mem_codesOf.mpr ⟨value, List.mem_of_getElem? hvalue, hbody⟩
  case h_2 => cases hl

/-- Constants of a code object hold no other code than the code object does. -/
theorem Code.confined_literalAt {P : CodeSite → Code → Prop} {code : Code} {site : CodeSite}
    {index : Nat} {literal : Literal} (h : ∀ body ∈ code.nested, ∀ site, P site body)
    (hl : code.literalAt site index = .ok literal) : literal.Confined P :=
  Code.confined_inner (fun body hbody => h body (List.mem_cons_of_mem _ hbody)) hl

/-- Constants of nested code hold nested code only. -/
theorem Code.confined_nested (module : Code) {site : CodeSite} {body : Code} {index : Nat}
    {literal : Literal} (h : body ∈ module.nested) (hl : body.literalAt site index = .ok literal) :
    literal.Confined fun _ body => body ∈ module.nested :=
  Code.confined_literalAt (fun _ hbody _ => Code.nested_subset h hbody) hl

end StubInference
