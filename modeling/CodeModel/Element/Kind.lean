/-!
# Kinds of elements

What an element is (`NodeKind`) and what it is for (`ClassKind`, `MethodKind`,
`PropertyKind`, `ParameterKind`). Every kind has a label, by which messages and
the written form of a model name it. Reading a label gives its kind back
(`ofLabel?_label`).
-/

namespace CodeModel

/-- What an element is. -/
inductive NodeKind where
  | namespaceDecl
  | classDecl
  | enumDecl
  | method
  | property
  | parameter
  | indexer
deriving DecidableEq, Repr, Inhabited

namespace NodeKind

/-- All kinds of elements. -/
def all : List NodeKind :=
  [namespaceDecl, classDecl, enumDecl, method, property, parameter, indexer]

/-- The name of a kind. -/
def label : NodeKind → String
  | namespaceDecl => "Namespace"
  | classDecl => "Class"
  | enumDecl => "Enum"
  | method => "Method"
  | property => "Property"
  | parameter => "Parameter"
  | indexer => "Indexer"

/-- The kind of a label. -/
def ofLabel? (label : String) : Option NodeKind :=
  all.find? fun k => k.label == label

theorem ofLabel?_label (k : NodeKind) : ofLabel? k.label = some k := by
  cases k <;> decide

/-- The kinds that other elements can refer to: classes and enums. -/
def isDeclaration : NodeKind → Bool
  | classDecl => true
  | enumDecl => true
  | _ => false

end NodeKind

/-- What a class is for. -/
inductive ClassKind where
  | custom
  | requestBuilder
  | model
  | queryParameters
deriving DecidableEq, Repr, Inhabited

namespace ClassKind

/-- All kinds of classes. -/
def all : List ClassKind :=
  [custom, requestBuilder, model, queryParameters]

/-- The name of a kind. -/
def label : ClassKind → String
  | custom => "Custom"
  | requestBuilder => "RequestBuilder"
  | model => "Model"
  | queryParameters => "QueryParameters"

/-- The kind of a label. -/
def ofLabel? (label : String) : Option ClassKind :=
  all.find? fun k => k.label == label

theorem ofLabel?_label (k : ClassKind) : ofLabel? k.label = some k := by
  cases k <;> decide

end ClassKind

/-- What a method is for. -/
inductive MethodKind where
  | custom
  | indexerBackwardCompatibility
  | requestExecutor
  | requestGenerator
  | serializer
  | deserializer
  | constructor
  | clientConstructor
deriving DecidableEq, Repr, Inhabited

namespace MethodKind

/-- All kinds of methods. -/
def all : List MethodKind :=
  [custom, indexerBackwardCompatibility, requestExecutor, requestGenerator,
    serializer, deserializer,
    constructor, clientConstructor]

/-- The name of a kind. -/
def label : MethodKind → String
  | custom => "Custom"
  | indexerBackwardCompatibility => "IndexerBackwardCompatibility"
  | requestExecutor => "RequestExecutor"
  | requestGenerator => "RequestGenerator"
  | serializer => "Serializer"
  | deserializer => "Deserializer"
  | constructor => "Constructor"
  | clientConstructor => "ClientConstructor"

/-- The kind of a label. -/
def ofLabel? (label : String) : Option MethodKind :=
  all.find? fun k => k.label == label

theorem ofLabel?_label (k : MethodKind) : ofLabel? k.label = some k := by
  cases k <;> decide

/-- Kinds of methods that may share a name within a class when their parameters
    differ. -/
def isOverloadable : MethodKind → Bool
  | requestExecutor => true
  | requestGenerator => true
  | constructor => true
  | _ => false

/-- Kinds of methods that construct an instance. -/
def isConstructor : MethodKind → Bool
  | constructor => true
  | clientConstructor => true
  | _ => false

end MethodKind

/-- What a property is for. -/
inductive PropertyKind where
  | custom
  | requestBuilder
  | additionalData
  | serializerFactory
  | httpCore
deriving DecidableEq, Repr, Inhabited

namespace PropertyKind

/-- All kinds of properties. -/
def all : List PropertyKind :=
  [custom, requestBuilder, additionalData, serializerFactory, httpCore]

/-- The name of a kind. -/
def label : PropertyKind → String
  | custom => "Custom"
  | requestBuilder => "RequestBuilder"
  | additionalData => "AdditionalData"
  | serializerFactory => "SerializerFactory"
  | httpCore => "HttpCore"

/-- The kind of a label. -/
def ofLabel? (label : String) : Option PropertyKind :=
  all.find? fun k => k.label == label

theorem ofLabel?_label (k : PropertyKind) : ofLabel? k.label = some k := by
  cases k <;> decide

end PropertyKind

/-- What a parameter is for. -/
inductive ParameterKind where
  | custom
  | queryParameter
  | responseHandler
  | requestBody
  | serializer
deriving DecidableEq, Repr, Inhabited

namespace ParameterKind

/-- All kinds of parameters. -/
def all : List ParameterKind :=
  [custom, queryParameter, responseHandler, requestBody, serializer]

/-- The name of a kind. -/
def label : ParameterKind → String
  | custom => "Custom"
  | queryParameter => "QueryParameter"
  | responseHandler => "ResponseHandler"
  | requestBody => "RequestBody"
  | serializer => "Serializer"

/-- The kind of a label. -/
def ofLabel? (label : String) : Option ParameterKind :=
  all.find? fun k => k.label == label

theorem ofLabel?_label (k : ParameterKind) : ofLabel? k.label = some k := by
  cases k <;> decide

end ParameterKind

end CodeModel
