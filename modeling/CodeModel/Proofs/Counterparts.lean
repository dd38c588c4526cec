import CodeModel.Element.References
import Mathlib.Data.List.Forall2

/-!
# Contents side by side

What is changed in the types, the imports and the names of an element can be
told by looking at its content before and after, part by part. Here the parts of
two contents are related without a word of how one is made from the other: types
with all that unions hold, imports, the identifier in the header of a class, the
name on the wire. All other data have to be the same.

* **`TypeRef.Matches`**: two types of one shape, by the names that they show and
  by what they lead to.
* **`Content.Matches`**: two contents of one kind, slot by slot.

Main statement: `Content.matches_mapTypes`, a change of what stands in the slots
reaches every slot.
-/

namespace CodeModel

/-! ## Types -/

/-- The second type is the first under names as `shown` tells of each reference
    that it holds, bound to where `lead` takes the declarations of the first.
    Alternatives stand in the same order, and whether a value may be absent or
    is a collection is the same at every depth. -/
inductive TypeRef.Matches (shown : TypeRef → String → Prop)
    (lead : ElementId → ElementId) : TypeRef → TypeRef → Prop where
  | external {name name' : String} {isNullable isCollection : Bool}
      (hname : shown ⟨name, .external, isNullable, isCollection⟩ name') :
      Matches shown lead ⟨name, .external, isNullable, isCollection⟩
        ⟨name', .external, isNullable, isCollection⟩
  | declared {name name' : String} {d : ElementId} {isNullable isCollection : Bool}
      (hname : shown ⟨name, .declared d, isNullable, isCollection⟩ name') :
      Matches shown lead ⟨name, .declared d, isNullable, isCollection⟩
        ⟨name', .declared (lead d), isNullable, isCollection⟩
  | union {name name' : String} {members members' : List TypeRef}
      {isNullable isCollection : Bool}
      (hname : shown ⟨name, .union members, isNullable, isCollection⟩ name')
      (hmembers : List.Forall₂ (Matches shown lead) members members') :
      Matches shown lead ⟨name, .union members, isNullable, isCollection⟩ ⟨name',
        .union members', isNullable, isCollection⟩

mutual

/-- A type that is bound elsewhere shows the names that it showed. -/
theorem TypeRef.matches_rebind (lead : ElementId → ElementId) :
    ∀ r : TypeRef, r.Matches (fun r name => name = r.name) lead (r.rebind lead)
  | ⟨_, .external, _, _⟩ => .external rfl
  | ⟨_, .declared _, _, _⟩ => .declared rfl
  | ⟨_, .union members, _, _⟩ => .union rfl (TypeRef.matches_rebindAll lead members)

/-- Members bound anew agree with the members, one by one. -/
theorem TypeRef.matches_rebindAll (lead : ElementId → ElementId) :
    ∀ rs : List TypeRef,
      List.Forall₂ (TypeRef.Matches (fun r name => name = r.name) lead) rs
        (TypeRef.rebindAll lead rs)
  | [] => .nil
  | r :: rest =>
      .cons (TypeRef.matches_rebind lead r) (TypeRef.matches_rebindAll lead rest)

end

mutual

/-- A type under other names leads to where it led. -/
theorem TypeRef.matches_rename {shown : TypeRef → String → Prop}
    {f : TypeRef → String} (hf : ∀ r, shown r (f r)) :
    ∀ r : TypeRef, r.Matches shown (fun d => d) (r.rename f)
  | ⟨_, .external, _, _⟩ => .external (hf _)
  | ⟨_, .declared _, _, _⟩ => .declared (hf _)
  | ⟨_, .union members, _, _⟩ =>
      .union (hf _) (TypeRef.matches_renameAll hf members)

/-- Members that are renamed agree with the members, one by one. -/
theorem TypeRef.matches_renameAll {shown : TypeRef → String → Prop}
    {f : TypeRef → String} (hf : ∀ r, shown r (f r)) :
    ∀ rs : List TypeRef, List.Forall₂ (TypeRef.Matches shown fun d => d) rs
      (TypeRef.renameAll f rs)
  | [] => .nil
  | r :: rest =>
      .cons (TypeRef.matches_rename hf r) (TypeRef.matches_renameAll hf rest)

end

/-! ## Contents -/

/-- The second import is the first with its symbol as `types` says and its name
    as `named` says. -/
structure Import.Matches (types : TypeRef → TypeRef → Prop)
    (named : Import → String → Prop) (i i' : Import) : Prop where
  name : named i i'.name
  symbol : Option.Rel types i.symbol i'.symbol
  path_eq : i'.path = i.path

/-- The second content is of the kind of the first and has the same data, but
    for types, imports, the identifier in the header of a class, and the name on
    the wire. Of those `types`, `imports`, `token` and `wire` tell, of each slot
    on its own. -/
inductive Content.Matches (types : TypeRef → TypeRef → Prop)
    (imports : Import → Import → Prop) (token : String → String → Prop)
    (wire : Option String → Option String → Prop) : Content → Content → Prop where
  | namespaceDecl {block block' : List Import}
      (himports : List.Forall₂ imports block block') : Matches types imports token
      wire (.namespaceDecl block) (.namespaceDecl block')
  | classDecl {c c' : ClassDecl} (hkind : c'.kind = c.kind)
      (htoken : token c.token c'.token)
      (hinherits : Option.Rel types c.inherits c'.inherits)
      (himplements : List.Forall₂ types c.implements c'.implements)
      (himports : List.Forall₂ imports c.imports c'.imports)
      (hwire : wire c.serializationName c'.serializationName) :
      Matches types imports token wire (.classDecl c) (.classDecl c')
  | enumDecl (options : List String) :
      Matches types imports token wire (.enumDecl options) (.enumDecl options)
  | method {m m' : MethodDecl} (hkind : m'.kind = m.kind)
      (hasync : m'.isAsync = m.isAsync)
      (hreturn : types m.returnType m'.returnType) :
      Matches types imports token wire (.method m) (.method m')
  | property {p p' : PropertyDecl} (hkind : p'.kind = p.kind)
      (htype : types p.type p'.type)
      (hwire : wire p.serializationName p'.serializationName)
      (hdefault : p'.defaultValue = p.defaultValue) :
      Matches types imports token wire (.property p) (.property p')
  | parameter {p p' : ParameterDecl} (hkind : p'.kind = p.kind)
      (htype : types p.type p'.type) (hdefault : p'.defaultValue = p.defaultValue) :
      Matches types imports token wire (.parameter p) (.parameter p')
  | indexer {i i' : IndexerDecl} (hindex : types i.indexType i'.indexType)
      (hreturn : types i.returnType i'.returnType) :
      Matches types imports token wire (.indexer i) (.indexer i')

/-- What is said of the identifier in the header and of the name on the wire may
    be said in other words. -/
theorem Content.Matches.imp {types : TypeRef → TypeRef → Prop}
    {imports : Import → Import → Prop} {token token' : String → String → Prop}
    {wire wire' : Option String → Option String → Prop} {content content' : Content}
    (h : content.Matches types imports token wire content')
    (htoken : ∀ a b, token a b → token' a b)
    (hwire : ∀ w w', wire w w' → wire' w w') :
    content.Matches types imports token' wire' content' := by
  cases h with
  | namespaceDecl himports => exact .namespaceDecl himports
  | classDecl hkind ht hinherits himplements himports hw =>
      exact .classDecl hkind (htoken _ _ ht) hinherits himplements himports
        (hwire _ _ hw)
  | enumDecl options => exact .enumDecl options
  | method hkind hasync hreturn => exact .method hkind hasync hreturn
  | property hkind htype hw hdefault =>
      exact .property hkind htype (hwire _ _ hw) hdefault
  | parameter hkind htype hdefault => exact .parameter hkind htype hdefault
  | indexer hindex hreturn => exact .indexer hindex hreturn

variable {types : TypeRef → TypeRef → Prop} {f : TypeRef → TypeRef}

/-- An import whose symbol is changed agrees with the import in all else. -/
theorem Import.matches_mapSymbol (hf : ∀ r, types r (f r)) (i : Import) :
    i.Matches types (fun i name => name = i.name) (i.mapSymbol f) where
  name := rfl
  symbol := by
    rw [mapSymbol]
    cases i.symbol with
    | none => exact .none
    | some r => exact .some (hf r)
  path_eq := rfl

/-- Where `f` makes of every type what `types` says, changing the slots by `f`
    does so in each of them and leaves the rest. -/
theorem Content.matches_mapTypes (hf : ∀ r, types r (f r)) (content : Content) :
    content.Matches types (Import.Matches types fun i name => name = i.name)
      (fun a b => b = a)
      (fun a b => b = a) (content.mapTypes f) := by
  have htypes : ∀ rs : List TypeRef, List.Forall₂ types rs (rs.map f) := fun rs =>
    List.forall₂_map_right_iff.mpr (List.forall₂_same.mpr fun r _ => hf r)
  have himports : ∀ block : List Import,
      List.Forall₂ (Import.Matches types fun i name => name = i.name) block
        (block.map (·.mapSymbol f)) := fun block =>
    List.forall₂_map_right_iff.mpr
      (List.forall₂_same.mpr fun i _ => i.matches_mapSymbol hf)
  cases content with
  | namespaceDecl block => exact .namespaceDecl (himports block)
  | classDecl c =>
      refine .classDecl rfl rfl ?_ (htypes c.implements) (himports c.imports) rfl
      show Option.Rel types c.inherits (c.inherits.map f)
      cases c.inherits with
      | none => exact .none
      | some r => exact .some (hf r)
  | enumDecl options => exact .enumDecl options
  | method m => exact .method rfl rfl (hf _)
  | property p => exact .property rfl (hf _) rfl rfl
  | parameter p => exact .parameter rfl (hf _) rfl
  | indexer i => exact .indexer (hf _) (hf _)

end CodeModel
