import ShoreMetadata.Calendar.Instant
import ShoreMetadata.Number.Binary
import ShoreMetadata.Schema.Kind

/-! The fields of entities. A field has one type wherever it occurs. -/

namespace ShoreMetadata

inductive ContainerType where
  | file
  | stream
deriving DecidableEq

def ContainerType.name : ContainerType → String
  | .file => "File"
  | .stream => "Stream"

def ContainerType.ofName? (name : String) : Option ContainerType :=
  if name = ContainerType.file.name then some .file
  else if name = ContainerType.stream.name then some .stream
  else none

inductive ProducerType where
  | deployment
  | processRun
deriving DecidableEq

def ProducerType.name : ProducerType → String
  | .deployment => "Deployment"
  | .processRun => "ProcessRun"

def ProducerType.ofName? (name : String) : Option ProducerType :=
  if name = ProducerType.deployment.name then some .deployment
  else if name = ProducerType.processRun.name then some .processRun
  else none

inductive FieldType where
  | long
  | int
  | double
  | float
  | bool
  | date
  | text
  | containerType
  | producerType
  | bytes
deriving DecidableEq

namespace FieldType

def Value : FieldType → Type
  | .long => Int64
  | .int => Int32
  | .double => Number.Double
  | .float => Number.Single
  | .bool => Bool
  | .date => Calendar.Instant
  | .text => String
  | .containerType => ContainerType
  | .producerType => ProducerType
  | .bytes => List UInt8

instance : (t : FieldType) → DecidableEq t.Value
  | .long => inferInstanceAs (DecidableEq Int64)
  | .int => inferInstanceAs (DecidableEq Int32)
  | .double => inferInstanceAs (DecidableEq Number.Double)
  | .float => inferInstanceAs (DecidableEq Number.Single)
  | .bool => inferInstanceAs (DecidableEq Bool)
  | .date => inferInstanceAs (DecidableEq Calendar.Instant)
  | .text => inferInstanceAs (DecidableEq String)
  | .containerType => inferInstanceAs (DecidableEq ContainerType)
  | .producerType => inferInstanceAs (DecidableEq ProducerType)
  | .bytes => inferInstanceAs (DecidableEq (List UInt8))

/-- Equality of values. It is not reflexive: no number equals a NaN. -/
def same : (t : FieldType) → t.Value → t.Value → Bool
  | .double, a, b => Number.Binary.same a b
  | .float, a, b => Number.Binary.same a b
  | .long, a, b => a == (b : Int64)
  | .int, a, b => a == (b : Int32)
  | .bool, a, b => a == (b : Bool)
  | .date, a, b => decide (a = (b : Calendar.Instant))
  | .text, a, b => a == (b : String)
  | .containerType, a, b => decide (a = (b : ContainerType))
  | .producerType, a, b => decide (a = (b : ProducerType))
  | .bytes, a, b => a == (b : List UInt8)

end FieldType

inductive Field where
  | id
  | tagString
  | name
  | description
  | dataContainerType
  | startDate
  | endDate
  | original
  | uriString
  | contentLength
  | mimeType
  | numberOfRecords
  | dodsAccessible
  | dodsUrlString
  | noNetCdf
  | minLatitude
  | maxLatitude
  | minLongitude
  | maxLongitude
  | minDepth
  | maxDepth
  | dataProducerType
  | role
  | nominalLatitude
  | nominalLatitudeAccuracy
  | nominalLongitude
  | nominalLongitudeAccuracy
  | nominalDepth
  | nominalDepthAccuracy
  | nominalBenthicAltitude
  | nominalBenthicAltitudeAccuracy
  | xOffset
  | yOffset
  | zOffset
  | orientationDescription
  | x3dOrientationText
  | hostName
  | uuid
  | mfgName
  | mfgModel
  | mfgSerialNumber
  | infoUrlList
  | byteOffset
  | numHeaderLines
  | firstname
  | surname
  | organization
  | username
  | password
  | email
  | phone
  | address1
  | address2
  | city
  | state
  | zipcode
  | status
  | recordType
  | bufferStyle
  | bufferParseType
  | bufferItemSeparator
  | bufferLengthType
  | recordTerminator
  | parseable
  | endian
  | recordParseRegExp
  | longName
  | format
  | units
  | columnIndex
  | validMin
  | validMax
  | missingValue
  | accuracy
  | displayMin
  | displayMax
  | referenceScale
  | conversionScale
  | conversionOffset
  | convertedUnits
  | sourceSensorId
  | parseRegExp
  | byteArray
  | softwareVersion
  | symbol
  | namespaceUriString
  | groupName
deriving DecidableEq

namespace Field

def all : List Field :=
  [.id, .tagString, .name, .description, .dataContainerType, .startDate, .endDate, .original,
    .uriString, .contentLength, .mimeType, .numberOfRecords, .dodsAccessible, .dodsUrlString,
    .noNetCdf, .minLatitude, .maxLatitude, .minLongitude, .maxLongitude, .minDepth, .maxDepth,
    .dataProducerType, .role, .nominalLatitude, .nominalLatitudeAccuracy, .nominalLongitude,
    .nominalLongitudeAccuracy, .nominalDepth, .nominalDepthAccuracy, .nominalBenthicAltitude,
    .nominalBenthicAltitudeAccuracy, .xOffset, .yOffset, .zOffset, .orientationDescription,
    .x3dOrientationText, .hostName, .uuid, .mfgName, .mfgModel, .mfgSerialNumber, .infoUrlList,
    .byteOffset, .numHeaderLines, .firstname, .surname, .organization, .username, .password,
    .email, .phone, .address1, .address2, .city, .state, .zipcode, .status, .recordType,
    .bufferStyle, .bufferParseType, .bufferItemSeparator, .bufferLengthType, .recordTerminator,
    .parseable, .endian, .recordParseRegExp, .longName, .format, .units, .columnIndex, .validMin,
    .validMax, .missingValue, .accuracy, .displayMin, .displayMax, .referenceScale,
    .conversionScale, .conversionOffset, .convertedUnits, .sourceSensorId, .parseRegExp,
    .byteArray, .softwareVersion, .symbol, .namespaceUriString, .groupName]

theorem mem_all (f : Field) : f ∈ all := by
  cases f <;> decide

def type : Field → FieldType
  | .id | .contentLength | .numberOfRecords | .byteOffset | .recordType | .columnIndex
  | .sourceSensorId => .long
  | .numHeaderLines => .int
  | .minLatitude | .maxLatitude | .minLongitude | .maxLongitude | .nominalLatitude
  | .nominalLongitude | .displayMin | .displayMax | .conversionScale
  | .conversionOffset => .double
  | .minDepth | .maxDepth | .nominalLatitudeAccuracy | .nominalLongitudeAccuracy | .nominalDepth
  | .nominalDepthAccuracy | .nominalBenthicAltitude | .nominalBenthicAltitudeAccuracy | .xOffset
  | .yOffset | .zOffset => .float
  | .original | .dodsAccessible | .noNetCdf | .parseable => .bool
  | .startDate | .endDate => .date
  | .dataContainerType => .containerType
  | .dataProducerType => .producerType
  | .byteArray => .bytes
  | _ => .text

abbrev Value (f : Field) : Type :=
  f.type.Value

def key : Field → String
  | .id => "id"
  | .tagString => "tagString"
  | .name => "name"
  | .description => "description"
  | .dataContainerType => "dataContainerType"
  | .startDate => "startDate"
  | .endDate => "endDate"
  | .original => "original"
  | .uriString => "uriString"
  | .contentLength => "contentLength"
  | .mimeType => "mimeType"
  | .numberOfRecords => "numberOfRecords"
  | .dodsAccessible => "dodsAccessible"
  | .dodsUrlString => "dodsUrlString"
  | .noNetCdf => "noNetCdf"
  | .minLatitude => "minLatitude"
  | .maxLatitude => "maxLatitude"
  | .minLongitude => "minLongitude"
  | .maxLongitude => "maxLongitude"
  | .minDepth => "minDepth"
  | .maxDepth => "maxDepth"
  | .dataProducerType => "dataProducerType"
  | .role => "role"
  | .nominalLatitude => "nominalLatitude"
  | .nominalLatitudeAccuracy => "nominalLatitudeAccuracy"
  | .nominalLongitude => "nominalLongitude"
  | .nominalLongitudeAccuracy => "nominalLongitudeAccuracy"
  | .nominalDepth => "nominalDepth"
  | .nominalDepthAccuracy => "nominalDepthAccuracy"
  | .nominalBenthicAltitude => "nominalBenthicAltitude"
  | .nominalBenthicAltitudeAccuracy => "nominalBenthicAltitudeAccuracy"
  | .xOffset => "xOffset"
  | .yOffset => "yOffset"
  | .zOffset => "zOffset"
  | .orientationDescription => "orientationDescription"
  | .x3dOrientationText => "x3dOrientationText"
  | .hostName => "hostName"
  | .uuid => "uuid"
  | .mfgName => "mfgName"
  | .mfgModel => "mfgModel"
  | .mfgSerialNumber => "mfgSerialNumber"
  | .infoUrlList => "infoUrlList"
  | .byteOffset => "byteOffset"
  | .numHeaderLines => "numHeaderLines"
  | .firstname => "firstname"
  | .surname => "surname"
  | .organization => "organization"
  | .username => "username"
  | .password => "password"
  | .email => "email"
  | .phone => "phone"
  | .address1 => "address1"
  | .address2 => "address2"
  | .city => "city"
  | .state => "state"
  | .zipcode => "zipcode"
  | .status => "status"
  | .recordType => "recordType"
  | .bufferStyle => "bufferStyle"
  | .bufferParseType => "bufferParseType"
  | .bufferItemSeparator => "bufferItemSeparator"
  | .bufferLengthType => "bufferLengthType"
  | .recordTerminator => "recordTerminator"
  | .parseable => "parseable"
  | .endian => "endian"
  | .recordParseRegExp => "recordParseRegExp"
  | .longName => "longName"
  | .format => "format"
  | .units => "units"
  | .columnIndex => "columnIndex"
  | .validMin => "validMin"
  | .validMax => "validMax"
  | .missingValue => "missingValue"
  | .accuracy => "accuracy"
  | .displayMin => "displayMin"
  | .displayMax => "displayMax"
  | .referenceScale => "referenceScale"
  | .conversionScale => "conversionScale"
  | .conversionOffset => "conversionOffset"
  | .convertedUnits => "convertedUnits"
  | .sourceSensorId => "sourceSensorId"
  | .parseRegExp => "parseRegExp"
  | .byteArray => "byteArray"
  | .softwareVersion => "softwareVersion"
  | .symbol => "symbol"
  | .namespaceUriString => "namespaceUriString"
  | .groupName => "groupName"

def xmlName : Field → String
  | .noNetCdf => "noNetCDF"
  | .xOffset => "xoffset"
  | .yOffset => "yoffset"
  | .zOffset => "zoffset"
  | .x3dOrientationText => "x3DOrientationText"
  | .sourceSensorId => "sourceSensorID"
  | f => f.key

end Field

/-- A version counter; minus one stands for an unknown version. -/
abbrev Version := Int64

def Version.unknown : Version := -1

namespace Kind

/-- The fields of a kind in the order of its JSON form; the version of an entity
follows them. -/
def fields : Kind → List Field
  | .commentTag => [.id, .tagString]
  | .dataContainer =>
    [.id, .name, .description, .dataContainerType, .startDate, .endDate,
      .original, .uriString, .contentLength, .mimeType, .numberOfRecords, .dodsAccessible,
      .dodsUrlString, .noNetCdf, .minLatitude, .maxLatitude, .minLongitude, .maxLongitude,
      .minDepth, .maxDepth]
  | .dataProducer =>
    [.id, .name, .description, .dataProducerType, .startDate, .endDate,
      .role, .nominalLatitude, .nominalLatitudeAccuracy, .nominalLongitude,
      .nominalLongitudeAccuracy, .nominalDepth, .nominalDepthAccuracy, .nominalBenthicAltitude,
      .nominalBenthicAltitudeAccuracy, .xOffset, .yOffset, .zOffset, .orientationDescription,
      .x3dOrientationText, .hostName]
  | .device =>
    [.id, .uuid, .name, .description, .mfgName, .mfgModel, .mfgSerialNumber,
      .infoUrlList]
  | .event => [.id, .name, .description, .startDate, .endDate]
  | .headerDescription => [.id, .description, .byteOffset, .numHeaderLines]
  | .person =>
    [.id, .firstname, .surname, .organization, .username, .password, .email,
      .phone, .address1, .address2, .city, .state, .zipcode, .status]
  | .recordDescription =>
    [.id, .recordType, .bufferStyle, .bufferParseType,
      .bufferItemSeparator, .bufferLengthType, .recordTerminator, .parseable, .endian,
      .recordParseRegExp]
  | .recordVariable =>
    [.id, .name, .description, .longName, .format, .units, .columnIndex,
      .validMin, .validMax, .missingValue, .accuracy, .displayMin, .displayMax, .referenceScale,
      .conversionScale, .conversionOffset, .convertedUnits, .sourceSensorId, .parseRegExp]
  | .resource =>
    [.id, .name, .description, .startDate, .endDate, .uriString, .contentLength,
      .mimeType]
  | .resourceBlob => [.id, .name, .description, .byteArray]
  | .software => [.id, .name, .description, .uriString, .softwareVersion]
  | .standardUnit => [.id, .name, .description, .longName, .symbol]
  | .standardVariable => [.id, .name, .namespaceUriString, .description, .referenceScale]
  | .userGroup => [.id, .groupName]
  | _ => [.id, .name, .description]

end Kind

end ShoreMetadata
