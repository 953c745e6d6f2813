import ModularC.Syntax.Basic

/-!
Records pulled out of typedefs: an inline struct or union body becomes a forward declaration,
a definition and the typedef of the bare tag.
-/

namespace ModularC

/-- The first struct or union with a body among the parts of a base type: the parts with that
body removed and the tag filled in, the record's kind, its tag and its fields. -/
def TypePart.splitRecord (aliasName : String) :
    List TypePart → Option (List TypePart × RecordKind × String × List Declaration)
  | [] => none
  | .record ⟨kind, tag?, some (.fields fs)⟩ :: ps =>
    if kind != .enum then
      let tag := tag?.getD ("__" ++ aliasName ++ "_struct")
      some (.record ⟨kind, some tag, none⟩ :: ps, kind, tag, fs)
    else
      (TypePart.splitRecord aliasName ps).map fun (rest, r) =>
        (.record ⟨kind, tag?, some (.fields fs)⟩ :: rest, r)
  | p :: ps => (TypePart.splitRecord aliasName ps).map fun (rest, r) => (p :: rest, r)

/-- A typedef, split when it defines a struct or union inline. -/
def Typedef.split (t : Typedef) : List Element :=
  match t.name? with
  | none => [.typedef t]
  | some aliasName =>
    match TypePart.splitRecord aliasName t.base.parts with
    | none => [.typedef t]
    | some (parts, kind, tag, fs) =>
      [.recordForward kind tag, .recordDef t.exported kind tag fs, .typedef { t with base := ⟨parts⟩ }]

/-- Every typedef of an inline struct or union body split into three elements. -/
def extractRecords (es : List Element) : List Element :=
  es.flatMap fun
    | .typedef t => t.split
    | e => [e]

end ModularC
