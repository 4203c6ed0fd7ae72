/-!
# Qualified names

A qualified name pairs a namespace with a local name. An unqualified name has the
empty namespace. Names are ordered by namespace first (`QName.compare`), and their
text is Clark notation : the namespace in braces, then the local name
(`QName.clark`).
-/

namespace MarkupTypes

/-- A qualified name of an attribute or an element. -/
structure QName where
  /-- The namespace, empty for an unqualified name. -/
  ns : String
  /-- The name within the namespace. -/
  localName : String
  deriving DecidableEq, Repr, Inhabited

namespace QName

/-- The unqualified name `name`. -/
def unqualified (name : String) : QName := ⟨"", name⟩

/-- A name is unqualified when its namespace is empty. -/
def isUnqualified (q : QName) : Bool := q.ns.isEmpty

/-- Clark notation : the namespace in braces before the local name, or the local name
alone when it is unqualified. -/
def clark (q : QName) : String :=
  if q.isUnqualified then q.localName else "\x7b" ++ q.ns ++ "\x7d" ++ q.localName

/-- The name marked as a name, for listings of mixed values. -/
def tagged (q : QName) : String := "QName(" ++ q.clark ++ ")"

/-- Names compare by namespace, then by local name, each by code points. -/
protected def compare (a b : QName) : Ordering :=
  (Ord.compare a.ns b.ns).then (Ord.compare a.localName b.localName)

instance : Ord QName := ⟨QName.compare⟩

end QName

end MarkupTypes
