import ShoreMetadata.Config
import ShoreMetadata.Entity.Json
import ShoreMetadata.Export.Element
import ShoreMetadata.Xml.Writer

/-! Documents of entities, in XML or in JSON. -/

namespace ShoreMetadata

open Xml (Element)

def schemaInstance : String := "http://www.w3.org/2001/XMLSchema-instance"

def schemaLocation : String :=
  "http://ssds.shore.mbari.org/ssds-docs/xml/schema/2010/SSDS_Metadata.xsd"

def topElement? (dialect : Dialect) (e : AnyEntity) : Option Element :=
  (e.toElement dialect).filter (!·.isEmpty)

def marshal (config : Config) (entities : List AnyEntity) : Element where
  name := rootTag
  attributes :=
    [("xmlns:xsi", schemaInstance), ("xsi:noNamespaceSchemaLocation", schemaLocation)]
  children := entities.filterMap (topElement? config.dialect)
  text := ""
  position := .none

def serialize (config : Config) (entities : List AnyEntity) : String :=
  Xml.write { pretty := config.pretty, declaration := true } (marshal config entities)

inductive Format where
  | xml
  | json
deriving DecidableEq

def Format.name : Format → String
  | .xml => "xml"
  | .json => "json"

def Format.ofName? (name : String) : Option Format :=
  if name = Format.xml.name then some .xml
  else if name = Format.json.name then some .json
  else none

def exportEntities (config : Config) (format : Format) (entities : List AnyEntity) : String :=
  match format with
  | .xml => serialize config entities
  | .json => (Json.array (entities.map AnyEntity.toJson)).write config.pretty

end ShoreMetadata
